import Mathlib

/-!
# The buffer pool

src/storage/buffer_pool_manager.cpp with the `LRUReplacer` of its shards and the pages of the
`DiskManager`.  Each latched section and each disk access is an operation of its own; the
functions called by one thread at a time are put together from them.  The contents of a page
are a parameter, with `0` for a page filled with zeros.

The page tables of the shards are kept in one: the key of a page, `page_key`, says which shard
it belongs to.  The disk does not fail, but `read_page` throws for a page that its file does not
hold whole: `fileLen` counts the whole pages of the file open under each descriptor, and what
`disk` has past them is what a hole reads as when the file has got longer.  The log is no part of
this model, so the `flush_log_to_disk` before a write is left out.
-/

namespace Rmdb.Buffer

structure PageId where
  fd : Nat
  pageNo : Nat
deriving DecidableEq, Repr

abbrev FrameId := Nat

/-- `BPM_NSHARDS` -/
def nshards : Nat := 64

/-- `PageIdHash`, on descriptors and page numbers that are not negative. -/
def shardOfPage (id : PageId) : Nat := ((id.fd <<< 16) ||| id.pageNo) % nshards

theorem shardOfPage_lt (id : PageId) : shardOfPage id < nshards := Nat.mod_lt _ (by decide)

/-- A frame; `id` is `none` for the page id `{-1, INVALID_PAGE_ID}`. -/
structure Page (α : Type) where
  id : Option PageId
  data : α
  isDirty : Bool
  pinCount : Nat

abbrev PageTable := AList fun _ : PageId => FrameId

structure BufferPool (α : Type) where
  poolSize : Nat
  pages : FrameId → Page α
  pageTable : PageTable
  /-- `LRUlist_` of the replacer of each shard, front first -/
  replacer : Nat → List FrameId
  /-- `free_frames_` of each shard -/
  freeFrames : Nat → List FrameId
  frameIoInflight : FrameId → Bool
  pageIoInflight : PageId → Bool
  disk : PageId → α
  /-- the whole pages of the file open under each descriptor -/
  fileLen : Nat → Nat
  /-- `fd2pageno_` of the `DiskManager` -/
  fd2pageno : Nat → Nat

/-- What `reserve_victim_nolock` returns. -/
structure Reserved where
  frame : FrameId
  oldPageId : Option PageId
  needFlush : Bool
deriving DecidableEq, Repr

/-- `InternalError`, with its text. -/
structure InternalError where
  what : String
deriving DecidableEq, Repr

/-- What `DiskManager::read_page` throws when it gets fewer bytes than a page. -/
def readPageError : InternalError := ⟨"DiskManager::read_page Error"⟩

/-- The constructor of the pool. -/
def start {α : Type} [Zero α] (poolSize : Nat) (disk : PageId → α) (fileLen fd2pageno : Nat → Nat) :
    BufferPool α where
  poolSize := poolSize
  pages _ := ⟨none, 0, false, 0⟩
  pageTable := ∅
  replacer _ := []
  freeFrames s := (List.range poolSize).filter fun f => f % nshards = s
  frameIoInflight _ := false
  pageIoInflight _ := false
  disk := disk
  fileLen := fileLen
  fd2pageno := fd2pageno

namespace BufferPool

variable {α : Type} (m : BufferPool α)

/-! ## Sections -/

def setPage (f : FrameId) (p : Page α) : BufferPool α :=
  { m with pages := Function.update m.pages f p }

/-- `LRUReplacer::pin` -/
def lruPin (s : Nat) (f : FrameId) : BufferPool α :=
  { m with replacer := Function.update m.replacer s ((m.replacer s).erase f) }

/-- `LRUReplacer::unpin` -/
def lruUnpin (s : Nat) (f : FrameId) : BufferPool α :=
  if f ∈ m.replacer s then m
  else if m.poolSize ≤ (m.replacer s).length then m
  else { m with replacer := Function.update m.replacer s (f :: m.replacer s) }

/-- `LRUReplacer::victim` -/
def lruVictim (s : Nat) : Option (FrameId × BufferPool α) :=
  match (m.replacer s).getLast? with
  | none => none
  | some f => some (f, { m with replacer := Function.update m.replacer s (m.replacer s).dropLast })

def setFrameIo (f : FrameId) (b : Bool) : BufferPool α :=
  { m with frameIoInflight := Function.update m.frameIoInflight f b }

def setPageIo (id : PageId) (b : Bool) : BufferPool α :=
  { m with pageIoInflight := Function.update m.pageIoInflight id b }

/-- The file holds the whole page. -/
def InFile (id : PageId) : Prop := id.pageNo < m.fileLen id.fd

instance (id : PageId) : Decidable (m.InFile id) := inferInstanceAs (Decidable (_ < _))

/-- `write_page` of a page, which makes the file longer if need be. -/
def writePage (id : PageId) (c : α) : BufferPool α :=
  { m with
    disk := Function.update m.disk id c
    fileLen := Function.update m.fileLen id.fd (max (m.fileLen id.fd) (id.pageNo + 1)) }

def eraseKey (id : PageId) : BufferPool α :=
  { m with pageTable := m.pageTable.erase id }

def pushFree (f : FrameId) : BufferPool α :=
  { m with freeFrames := Function.update m.freeFrames (f % nshards) (m.freeFrames (f % nshards) ++ [f]) }

/-- `++` on the pin count of a frame. -/
def addPin (f : FrameId) : BufferPool α :=
  m.setPage f { m.pages f with pinCount := (m.pages f).pinCount + 1 }

/-- The section of `reserve_victim_nolock` on shard `s`. -/
def tryReserve (s : Nat) : Option (Reserved × BufferPool α) :=
  match m.freeFrames s with
  | f :: fs =>
      let m := { m with freeFrames := Function.update m.freeFrames s fs }
      some (⟨f, none, false⟩, (m.setPage f { m.pages f with pinCount := 1 }).setFrameIo f true)
  | [] =>
      match m.lruVictim s with
      | none => none
      | some (f, m) =>
          let victim := m.pages f
          let m := match victim.id with
            | none => m
            | some id => m.eraseKey id
          some (⟨f, victim.id, victim.isDirty⟩,
            (m.setPage f { victim with pinCount := 1 }).setFrameIo f true)

/-- The write of a page that leaves its frame, if it needs one. -/
def writeBack (old : Option PageId) (isDirty : Bool) (c : α) : BufferPool α :=
  match old with
  | some id => if isDirty then m.writePage id c else m
  | none => m

/-- The write of the page that had the reserved frame. -/
def writeOld (r : Reserved) : BufferPool α := m.writeBack r.oldPageId r.needFlush (m.pages r.frame).data

/-- `read_page` of `id` into the frame, when it comes back. -/
def readInto (f : FrameId) (id : PageId) : BufferPool α :=
  m.setPage f { m.pages f with data := m.disk id }

/-- The section of `fetch_page` that enters the page it has read. -/
def publish (id : PageId) (f : FrameId) : BufferPool α :=
  let m := m.setPage f { m.pages f with id := some id, isDirty := false }
  { m with pageTable := m.pageTable.insert id f }

/-- The first section of `catch (...)` in `fetch_page`: the frame goes back to its free list. -/
def freeFrame (f : FrameId) : BufferPool α :=
  (m.setPage f { m.pages f with id := none, pinCount := 0, isDirty := false }).pushFree f

/-- `catch (...)` in `fetch_page` -/
def giveBack (id : PageId) (f : FrameId) : BufferPool α :=
  ((m.freeFrame f).setFrameIo f false).setPageIo id false

/-- The section of `new_page` that enters the new page. -/
def publishNew [Zero α] (id : PageId) (f : FrameId) : BufferPool α :=
  let m := m.setPage f ⟨some id, 0, false, 1⟩
  { m with pageTable := m.pageTable.insert id f }

/-- The page id that `allocate_page` gives. -/
def nextPageId (fd : Nat) : PageId := ⟨fd, m.fd2pageno fd⟩

/-- `fd2pageno_[fd]++` -/
def allocatePage (fd : Nat) : BufferPool α :=
  { m with fd2pageno := Function.update m.fd2pageno fd (m.fd2pageno fd + 1) }

/-- The section of `fetch_page` that pins a page that no one had pinned. -/
def pinResident (id : PageId) (f : FrameId) : BufferPool α :=
  let m := if (m.pages f).pinCount = 0 then m.lruPin (shardOfPage id) f else m
  m.addPin f

/-- `if (is_dirty) page.is_dirty_ = true` -/
def markDirty (f : FrameId) (isDirty : Bool) : BufferPool α :=
  m.setPage f { m.pages f with isDirty := (m.pages f).isDirty || isDirty }

/-- The rest of the section of `unpin_page`. -/
def dropPin (id : PageId) (f : FrameId) : Bool × BufferPool α :=
  if (m.pages f).pinCount = 0 then (false, m)
  else if (m.pages f).pinCount = 1 then
    (true, (m.setPage f { m.pages f with pinCount := 0 }).lruUnpin (shardOfPage id) f)
  else (true, m.setPage f { m.pages f with pinCount := (m.pages f).pinCount - 1 })

/-- `page.id_ = {-1, INVALID_PAGE_ID}` and the rest of a frame that is given back. -/
def resetFrame [Zero α] (f : FrameId) : BufferPool α := m.setPage f ⟨none, 0, false, 0⟩

/-! ## One thread at a time -/

def reserveVictim (pref : Nat) : Option (Reserved × BufferPool α) :=
  (List.range nshards).findSome? fun k => m.tryReserve ((pref + k) % nshards)

/-- `none` is a call that does not come back: it waits for a thread that is not there, or its
loop goes round for ever.  Otherwise it returns a frame or `nullptr`, or throws the error of
`read_page` on; what a read that is too short leaves in the frame is not kept. -/
def fetchPage (id : PageId) : Option (Except InternalError (Option FrameId) × BufferPool α) :=
  if m.pageIoInflight id then none
  else
    match m.pageTable.lookup id with
    | some f =>
        if 0 < (m.pages f).pinCount then some (.ok (some f), m.addPin f)
        else if (m.pages f).id ≠ some id then none
        else if m.frameIoInflight f then none
        else some (.ok (some f), m.pinResident id f)
    | none =>
        let m := m.setPageIo id true
        match m.reserveVictim (shardOfPage id) with
        | none => some (.ok none, m.setPageIo id false)
        | some (r, m) =>
            let m := m.writeOld r
            if m.InFile id then
              let m := (m.readInto r.frame id).publish id r.frame
              some (.ok (some r.frame), (m.setPageIo id false).setFrameIo r.frame false)
            else some (.error readPageError, m.giveBack id r.frame)

def unpinPage (id : PageId) (isDirty : Bool) : Bool × BufferPool α :=
  match m.pageTable.lookup id with
  | none => (false, m)
  | some f => (m.markDirty f isDirty).dropPin id f

def flushPage (id : PageId) : Bool × BufferPool α :=
  match m.pageTable.lookup id with
  | none => (false, m)
  | some f =>
      let m := m.writePage id (m.pages f).data
      (true, m.setPage f { m.pages f with isDirty := false })

/-- `new_page`, for the page id that `nextPageId` says. -/
def newPage [Zero α] (fd : Nat) : Option FrameId × BufferPool α :=
  let id := m.nextPageId fd
  let m := m.allocatePage fd
  match m.reserveVictim (shardOfPage id) with
  | none => (none, m)
  | some (r, m) => (some r.frame, ((m.writeOld r).publishNew id r.frame).setFrameIo r.frame false)

def deletePage [Zero α] (id : PageId) : Bool × BufferPool α :=
  match m.pageTable.lookup id with
  | none => (true, m)
  | some f =>
      if (m.pages f).pinCount ≠ 0 then (false, m)
      else
        let page := m.pages f
        let m := ((m.lruPin (shardOfPage id) f).eraseKey id).resetFrame f
        (true, (m.writeBack page.id page.isDirty page.data).pushFree f)

/-- One round of the loop of `flush_all_pages`. -/
def flushEntry (id : PageId) : BufferPool α := (m.flushPage id).2

/-- `flush_all_pages`, which finds the pages of the file in the order `ids`. -/
def flushAllPages (ids : List PageId) : BufferPool α := ids.foldl flushEntry m

/-- One round of the loop of `delete_all_pages`, which takes the frame out. -/
def dropEntry [Zero α] (m : BufferPool α) (id : PageId) : Option FrameId × BufferPool α :=
  match m.pageTable.lookup id with
  | none => (none, m)
  | some f =>
      let m := m.writeBack (some id) (m.pages f).isDirty (m.pages f).data
      (some f, ((m.lruPin (shardOfPage id) f).resetFrame f).eraseKey id)

/-- The loop of `delete_all_pages`, with the frames taken out before. -/
def dropEntries [Zero α] (m : BufferPool α) (freed : List FrameId) : List PageId → List FrameId × BufferPool α
  | [] => (freed, m)
  | id :: ids =>
      let (f, m) := m.dropEntry id
      dropEntries m (freed ++ f.toList) ids

/-- `delete_all_pages`, which finds the pages of the file in the order `ids`. -/
def deleteAllPages [Zero α] (ids : List PageId) : BufferPool α :=
  let (freed, m) := m.dropEntries [] ids
  freed.foldl pushFree m

/-- `ids` are the pages of the file in the tables, each once. -/
def Lists (fd : Nat) (ids : List PageId) : Prop := ids.Perm (m.pageTable.keys.filter fun id => id.fd = fd)

instance (fd : Nat) (ids : List PageId) : Decidable (m.Lists fd ids) :=
  inferInstanceAs (Decidable (List.Perm _ _))

end BufferPool

end Rmdb.Buffer
