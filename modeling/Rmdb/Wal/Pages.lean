import Rmdb.Wal.Conns

/-!
# The buffer pool and the log

The connections' statements with the page write-backs of src/storage/buffer_pool_manager.cpp.
`evict` stands for the victim of `fetch_page` and `new_page` and for `delete_page`: the image
cannot change after it is taken.
-/

namespace Rmdb.Wal

open Rmdb.Txn

/-! ## Pages -/

/-- A page in the pool.  A holder has it pinned; the flag says whether it has changed the page. -/
structure Frame where
  data : Image
  isDirty : Bool
  holders : List (Nat × Bool)

/-- The pages of `flush_page`, and of `flush_all_pages` and `delete_all_pages`. -/
inductive Scope where
  | page (p : PageId)
  | file (fd : Int)
deriving DecidableEq, Repr

def Scope.covers : Scope → PageId → Bool
  | .page p, q => decide (q = p)
  | .file fd, q => decide (q.fd = fd)

/-- A write-back in progress; `target` is the log number its `flush_log_to_disk` waits for. -/
inductive Job where
  | none
  /-- the image is taken first: eviction and the page cleaner -/
  | frozen (p : PageId) (img : Image) (cleaner : Bool) (target : Option Int)
  /-- the log is flushed first; `drop` for `delete_all_pages` -/
  | live (scope : Scope) (drop : Bool) (target : Option Int)
deriving DecidableEq, Repr

def Job.target? : Job → Option Int
  | .none => Option.none
  | .frozen _ _ _ target | .live _ _ target => target

/-- The image that was taken before the log is flushed. -/
def Job.image? : Job → Option Image
  | .frozen _ img _ _ => some img
  | .none | .live _ _ _ => Option.none

structure Pool extends Conns where
  table : PageId → Option Frame := fun _ => none
  disk : PageId → Image := fun _ => []
  job : Nat → Job := fun _ => .none

namespace Pool

def setFrame (s : Pool) (p : PageId) (fr : Option Frame) : Pool :=
  { s with table := Function.update s.table p fr }

def setJob (s : Pool) (i : Nat) (j : Job) : Pool := { s with job := Function.update s.job i j }

/-- Thread `i` is not inside a write-back, and no call of the log manager holds it. -/
def free (s : Pool) (i : Nat) : Bool := decide (s.job i = .none ∧ s.log.callers i = .idle)

/-! ## Pins -/

/-- `fetch_page` of a resident page. -/
def pin (s : Pool) (i : Nat) (p : PageId) : Option Pool :=
  match s.table p with
  | none => none
  | some fr =>
      if s.free i then some (s.setFrame p (some { fr with holders := (i, false) :: fr.holders }))
      else none

/-- `fetch_page` of a page that is not resident; a new page has an empty image. -/
def load (s : Pool) (i : Nat) (p : PageId) : Option Pool :=
  if (s.table p).isNone ∧ s.free i then some (s.setFrame p (some ⟨s.disk p, false, [(i, false)]⟩))
  else none

/-- `unpin_page`, dirty when the holder has changed the page. -/
def unpin (s : Pool) (i : Nat) (p : PageId) : Option Pool :=
  match s.table p with
  | none => none
  | some fr =>
      match fr.holders.find? fun h => h.1 = i with
      | none => none
      | some h =>
          if s.free i then
            some (s.setFrame p (some
              { fr with isDirty := fr.isDirty || h.2, holders := fr.holders.erase h }))
          else none

/-! ## Statements -/

/-- A holder changes the page. -/
def applyChange (s : Pool) (i : Nat) (c : Change) : Option Pool :=
  match s.table c.page with
  | none => none
  | some fr =>
      if fr.holders.any fun h => h.1 = i then
        some (s.setFrame c.page (some
          { fr with
            data := fr.data ++ [c]
            holders := fr.holders.map fun h => if h.1 = i then (i, true) else h }))
      else none

/-- A step of the connections and the log manager. -/
def conn (s : Pool) (a : ConnAct) : Option Pool := (s.toConns.step a).map fun t => { s with toConns := t }

/-- `insert_record` or an in-place slot update; its log record comes next. -/
def change (s : Pool) (i : Nat) (p : PageId) (record : LogRecord) : Option Pool :=
  if s.job i = .none then
    (s.conn (.change i p record)).bind fun t => t.applyChange i ⟨s.nextId, p, record⟩
  else none

/-- A statement that logs its change first: a versioned write, an in-place delete. -/
def logFirst (s : Pool) (i : Nat) (p : PageId) (record : LogRecord) : Option Pool :=
  if s.job i = .none then s.conn (.logFirst i p record) else none

/-- `add_log_to_buffer`. -/
def addLog (s : Pool) (i : Nat) (other : LogRecord) : Option Pool :=
  if s.job i = .none then s.conn (.addLog i other) else none

/-- A change that is logged is applied: at once, or at commit. -/
def apply (s : Pool) (i : Nat) (c : Change) : Option Pool :=
  if s.job i = .none then (s.conn (.take i c)).bind fun t => t.applyChange i c else none

/-! ## Write-backs -/

/-- The victim of `fetch_page` or `new_page` leaves the page table. -/
def evict (s : Pool) (i : Nat) (p : PageId) : Option Pool :=
  match s.table p with
  | none => none
  | some fr =>
      if fr.holders = [] ∧ s.stmt i = .idle ∧ s.free i then
        some ((s.setFrame p none).setJob i (if fr.isDirty then .frozen p fr.data false none else .none))
      else none

/-- The page cleaner copies a dirty page. -/
def clean (s : Pool) (i : Nat) (p : PageId) : Option Pool :=
  match s.table p with
  | none => none
  | some fr =>
      if fr.holders = [] ∧ fr.isDirty ∧ s.stmt i = .idle ∧ s.free i then
        some (s.setJob i (.frozen p fr.data true none))
      else none

/-- `flush_page`, `flush_all_pages` or `delete_all_pages` is called. -/
def startFlush (s : Pool) (i : Nat) (scope : Scope) (drop : Bool) : Option Pool :=
  if s.stmt i = .idle ∧ s.free i then some (s.setJob i (.live scope drop none)) else none

/-- The write-back calls `flush_log_to_disk`. -/
def flushLog (s : Pool) (i : Nat) : Option Pool :=
  let target := toInt32 (s.log.globalLsn - 1)
  match s.job i with
  | .frozen p img cleaner none =>
      (s.conn (.log (.flushLogToDisk i))).map fun s => s.setJob i (.frozen p img cleaner (some target))
  | .live scope drop none =>
      (s.conn (.log (.flushLogToDisk i))).map fun s => s.setJob i (.live scope drop (some target))
  | _ => none

/-- The image taken before goes to the disk. -/
def writeFrozen (s : Pool) (i : Nat) : Option Pool :=
  match s.job i with
  | .frozen p img cleaner (some _) =>
      if s.log.callers i = .idle then
        let s := { s with disk := Function.update s.disk p img }.setJob i .none
        match s.table p with
        | some fr =>
            if cleaner ∧ fr.holders = [] then some (s.setFrame p (some { fr with isDirty := false }))
            else some s
        | none => some s
      else none
  | _ => none

/-- The image of a resident page goes to the disk as it is now. -/
def writeLive (s : Pool) (i : Nat) (p : PageId) : Option Pool :=
  match s.job i, s.table p with
  | .live scope drop (some _), some fr =>
      if s.log.callers i = .idle ∧ scope.covers p then
        let s := if drop ∧ ¬ fr.isDirty then s else { s with disk := Function.update s.disk p fr.data }
        some (s.setFrame p (if drop then none else some { fr with isDirty := false }))
      else none
  | _, _ => none

def endFlush (s : Pool) (i : Nat) : Option Pool :=
  match s.job i with
  | .live _ _ (some _) => if s.log.callers i = .idle then some (s.setJob i .none) else none
  | _ => none

/-- A step of the flush worker, or of a thread that waits for the log. -/
def logStep (s : Pool) (a : LogAct) : Option Pool :=
  match a with
  | .flushLogToDisk _ => none
  | .waitForPersist i _ => if s.job i = .none then s.conn (.log a) else none
  | _ => s.conn (.log a)

end Pool

/-! ## Runs -/

inductive PoolAct where
  | pin (i : Nat) (p : PageId)
  | load (i : Nat) (p : PageId)
  | unpin (i : Nat) (p : PageId)
  | change (i : Nat) (p : PageId) (record : LogRecord)
  | logFirst (i : Nat) (p : PageId) (record : LogRecord)
  | addLog (i : Nat) (other : LogRecord)
  | addWoken (i : Nat)
  | apply (i : Nat) (c : Change)
  | evict (i : Nat) (p : PageId)
  | clean (i : Nat) (p : PageId)
  | startFlush (i : Nat) (scope : Scope) (drop : Bool)
  | flushLog (i : Nat)
  | writeFrozen (i : Nat)
  | writeLive (i : Nat) (p : PageId)
  | endFlush (i : Nat)
  | log (a : LogAct)
deriving DecidableEq, Repr

def Pool.step (s : Pool) : PoolAct → Option Pool
  | .pin i p => s.pin i p
  | .load i p => s.load i p
  | .unpin i p => s.unpin i p
  | .change i p record => s.change i p record
  | .logFirst i p record => s.logFirst i p record
  | .addLog i other => s.addLog i other
  | .addWoken i => s.conn (.addWoken i)
  | .apply i c => s.apply i c
  | .evict i p => s.evict i p
  | .clean i p => s.clean i p
  | .startFlush i scope drop => s.startFlush i scope drop
  | .flushLog i => s.flushLog i
  | .writeFrozen i => s.writeFrozen i
  | .writeLive i p => s.writeLive i p
  | .endFlush i => s.endFlush i
  | .log a => s.logStep a

end Rmdb.Wal
