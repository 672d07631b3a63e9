import Rmdb.Buffer.Contents
import Rmdb.Lib.Run

/-!
# The buffer pool with many threads

`fetch_page`, `new_page` and `unpin_page` called by any number of threads, with each latched
section and each disk access one step of its thread.  A thread that has a page changes it
and gives it back while it is outside.  To say which of two contents is older each carries
the number of the change that made it (`stamp`, `clock`); `left` and `unpinned` remember what
was last written into a page and what was last unpinned dirty.  A read past the end of a file throws,
and `catch (...)` of `fetch_page` gives the frame back in three sections.
-/

namespace Rmdb.Buffer

structure Image (α : Type) where
  data : α
  stamp : Nat
deriving DecidableEq, Repr

instance {α : Type} [Zero α] : Zero (Image α) := ⟨⟨0, 0⟩⟩

/-- Where a thread stands.  `began` is `unpinned` of the page when the fetch began. -/
inductive Pc where
  | idle
  /-- outside, after `fetch_page`; without a frame if it returned `nullptr` or threw -/
  | fetched (id : PageId) (f : Option FrameId) (began : Nat)
  /-- at the top of the `while` of `fetch_page` -/
  | looping (id : PageId) (began : Nat)
  /-- before the lookup under the shared latch -/
  | looking (id : PageId) (began : Nat)
  /-- before the lookup under the unique latch -/
  | pinning (id : PageId) (began : Nat)
  /-- waiting for the I/O on the frame -/
  | waiting (id : PageId) (f : FrameId) (began : Nat)
  /-- before the page is marked as being read -/
  | claiming (id : PageId) (began : Nat)
  /-- in `reserve_victim_nolock`, at the `k`-th shard -/
  | reserving (id : PageId) (k : Nat) (began : Nat)
  /-- without a frame, before the mark of the page is taken away -/
  | failing (id : PageId) (began : Nat)
  | writing (id : PageId) (r : Reserved) (began : Nat)
  | reading (id : PageId) (r : Reserved) (began : Nat)
  /-- in `catch (...)`, before the frame goes back to its free list -/
  | throwing (id : PageId) (f : FrameId) (began : Nat)
  /-- before the mark of the frame that went back is taken away -/
  | freed (id : PageId) (f : FrameId) (began : Nat)
  | publishing (id : PageId) (r : Reserved) (began : Nat)
  /-- before the mark of the page is taken away -/
  | ending (id : PageId) (f : FrameId) (began : Nat)
  /-- before the mark of the frame is taken away -/
  | leaving (id : PageId) (f : FrameId) (began : Nat)
  | newReserving (id : PageId) (k : Nat)
  | newWriting (id : PageId) (r : Reserved)
  | newPublishing (id : PageId) (r : Reserved)
  | newLeaving (id : PageId) (f : FrameId)
deriving DecidableEq, Repr

/-- A pin of a thread on a page; `changed` if the thread has written into the page since. -/
structure Pin where
  thread : Nat
  id : PageId
  frame : FrameId
  changed : Bool
deriving DecidableEq, Repr

structure Threads (α : Type) where
  pool : BufferPool (Image α)
  nthreads : Nat
  pc : Nat → Pc
  pins : List Pin
  clock : Nat
  left : PageId → Image α
  unpinned : PageId → Nat

inductive Act (α : Type) where
  | fetch (id : PageId)
  | newPage (fd : Nat)
  | change (id : PageId) (c : α)
  | unpin (id : PageId) (isDirty : Bool)
  /-- the next section or disk access of the call under way -/
  | next
deriving DecidableEq, Repr

def Pc.outside : Pc → Bool
  | .idle | .fetched .. => true
  | _ => false

namespace Threads

variable {α : Type} (s : Threads α)

def goto (t : Nat) (p : Pc) : Threads α := { s with pc := Function.update s.pc t p }

def withPool (m : BufferPool (Image α)) : Threads α := { s with pool := m }

def addPin (t : Nat) (id : PageId) (f : FrameId) : Threads α :=
  { s with pins := ⟨t, id, f, false⟩ :: s.pins }

def find (t : Nat) (id : PageId) : Option Pin := s.pins.find? fun k => k.thread = t ∧ k.id = id

/-- A holder writes into its frame. -/
def changeAt (t : Nat) (k : Pin) (c : α) : Threads α :=
  { s with
    pool := s.pool.setPage k.frame { s.pool.pages k.frame with data := ⟨c, s.clock + 1⟩ }
    pins := s.pins.map fun k' => if k'.thread = t ∧ k'.id = k.id then { k' with changed := true } else k'
    clock := s.clock + 1
    left := Function.update s.left k.id ⟨c, s.clock + 1⟩ }

/-- `unpin_page` by a holder. -/
def unpinAt (t : Nat) (k : Pin) (d : Bool) : Threads α :=
  { s with
    pool := (s.pool.unpinPage k.id d).2
    pins := s.pins.eraseP fun k' => k'.thread = t ∧ k'.id = k.id
    unpinned := if d then Function.update s.unpinned k.id (s.pool.pages k.frame).data.stamp else s.unpinned }

/-- The next step of a thread inside its call. -/
def next [Zero α] (t : Nat) : Option (Threads α) :=
  match s.pc t with
  | .idle | .fetched .. => none
  | .looping id b => if s.pool.pageIoInflight id then none else some (s.goto t (.looking id b))
  | .looking id b =>
      match s.pool.pageTable.lookup id with
      | none => some (s.goto t (.claiming id b))
      | some f =>
          if 0 < (s.pool.pages f).pinCount then
            some (((s.withPool (s.pool.addPin f)).addPin t id f).goto t (.fetched id (some f) b))
          else some (s.goto t (.pinning id b))
  | .pinning id b =>
      match s.pool.pageTable.lookup id with
      | none => some (s.goto t (.looping id b))
      | some f =>
          if (s.pool.pages f).id ≠ some id then some (s.goto t (.looping id b))
          else if s.pool.frameIoInflight f then some (s.goto t (.waiting id f b))
          else some (((s.withPool (s.pool.pinResident id f)).addPin t id f).goto t (.fetched id (some f) b))
  | .waiting id f b => if s.pool.frameIoInflight f then none else some (s.goto t (.looping id b))
  | .claiming id b =>
      if s.pool.pageIoInflight id then some (s.goto t (.looping id b))
      else if s.pool.pageTable.lookup id ≠ none then some (s.goto t (.looping id b))
      else some ((s.withPool (s.pool.setPageIo id true)).goto t (.reserving id 0 b))
  | .reserving id k b =>
      if k = nshards then some (s.goto t (.failing id b))
      else
        match s.pool.tryReserve ((shardOfPage id + k) % nshards) with
        | none => some (s.goto t (.reserving id (k + 1) b))
        | some (r, m) => some ((s.withPool m).goto t (.writing id r b))
  | .failing id b => some ((s.withPool (s.pool.setPageIo id false)).goto t (.fetched id none b))
  | .writing id r b => some ((s.withPool (s.pool.writeOld r)).goto t (.reading id r b))
  | .reading id r b =>
      if s.pool.InFile id then some ((s.withPool (s.pool.readInto r.frame id)).goto t (.publishing id r b))
      else some (s.goto t (.throwing id r.frame b))
  | .throwing id f b => some ((s.withPool (s.pool.freeFrame f)).goto t (.freed id f b))
  | .freed id f b => some ((s.withPool (s.pool.setFrameIo f false)).goto t (.failing id b))
  | .publishing id r b =>
      some (((s.withPool (s.pool.publish id r.frame)).addPin t id r.frame).goto t (.ending id r.frame b))
  | .ending id f b => some ((s.withPool (s.pool.setPageIo id false)).goto t (.leaving id f b))
  | .leaving id f b => some ((s.withPool (s.pool.setFrameIo f false)).goto t (.fetched id (some f) b))
  | .newReserving id k =>
      if k = nshards then some (s.goto t .idle)
      else
        match s.pool.tryReserve ((shardOfPage id + k) % nshards) with
        | none => some (s.goto t (.newReserving id (k + 1)))
        | some (r, m) => some ((s.withPool m).goto t (.newWriting id r))
  | .newWriting id r => some ((s.withPool (s.pool.writeOld r)).goto t (.newPublishing id r))
  | .newPublishing id r =>
      some (((s.withPool (s.pool.publishNew id r.frame)).addPin t id r.frame).goto t (.newLeaving id r.frame))
  | .newLeaving _ f => some ((s.withPool (s.pool.setFrameIo f false)).goto t .idle)

/-- The next step of a thread outside. -/
def call (t : Nat) : Act α → Option (Threads α)
  | .fetch id => some (s.goto t (.looping id (s.unpinned id)))
  | .newPage fd =>
      some ((s.withPool (s.pool.allocatePage fd)).goto t (.newReserving (s.pool.nextPageId fd) 0))
  | .change id c => (s.find t id).map fun k => s.changeAt t k c
  | .unpin id d => (s.find t id).map fun k => (s.unpinAt t k d).goto t .idle
  | .next => none

omit s in
/-- A step of thread `act.1`. -/
def step [Zero α] (s : Threads α) (act : Nat × Act α) : Option (Threads α) :=
  if act.1 < s.nthreads then
    match act.2 with
    | .next => s.next act.1
    | a => if (s.pc act.1).outside then s.call act.1 a else none
  else none

end Threads

end Rmdb.Buffer
