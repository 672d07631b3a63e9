import Rmdb.Buffer.Refine

/-!
# Files under descriptors

`RmManager` and `IxManager` over the buffer pool: files are made, opened under a descriptor that
the operating system chooses among those not in use, closed and removed, while pages are fetched
and made.  The pool knows pages by descriptor.  In the runs in which a file is opened only under a
descriptor that no page of the pool has, with the page counter where the file left it
(`Server.Careful`), each file keeps to itself (`run_files_apart`).

What an open file holds is the `disk` of the pool at its descriptor, and `fileLen` of it are whole
pages.  A file header is less than a page, the first of page 0: `numPages` reads the `num_pages` of a
table file from it.
-/

namespace Rmdb.Buffer

open Rmdb.Lib (run Along run_invariant_along)

abbrev Path := String

/-- A file, of which `len` pages are whole. -/
structure File (α : Type) where
  pages : Nat → α
  len : Nat

structure Server (α : Type) where
  clients : Clients α
  /-- the files there are, with what those hold that are not open -/
  files : Path → Option (File α)
  path2fd : Path → Option Nat
  fd2path : Nat → Option Path
  /-- what was put into the pages of each file -/
  content : Path → Nat → α
  /-- the pages that a file had been given when it was closed or made -/
  allotted : Path → Nat

inductive FileCall (α : Type) where
  /-- `RmManager::create_file` -/
  | createTable (path : Path) (hdr : α)
  /-- `IxManager::create_index`, which has the file open under `fd` for a while -/
  | createIndex (path : Path) (fd : Nat) (hdr leafHeader root : α)
  /-- `destroy_file` and `destroy_index` -/
  | destroy (path : Path)
  | openTable (path : Path) (fd : Nat)
  | openIndex (path : Path) (fd : Nat)
  | closeTable (fd : Nat) (ids : List PageId) (hdr : α)
  | closeIndex (fd : Nat) (ids : List PageId) (hdr : α)
  | fetch (h : Nat) (id : PageId)
  | newPage (h : Nat) (fd : Nat)
  | change (h : Nat) (id : PageId) (c : α)
  | unpin (h : Nat) (id : PageId) (isDirty : Bool)
deriving DecidableEq

/-- `IX_INIT_NUM_PAGES` -/
def ixInitNumPages : Nat := 3

namespace BufferPool

variable {α : Type} (m : BufferPool α)

/-- The file is opened under the descriptor. -/
def mount (fd : Nat) (c : File α) : BufferPool α :=
  { m with
    disk := fun id => if id.fd = fd then c.pages id.pageNo else m.disk id
    fileLen := Function.update m.fileLen fd c.len }

/-- `write_page` of less than a page, the rest of which stays. -/
def writePart (id : PageId) (c : α) : BufferPool α := { m with disk := Function.update m.disk id c }

/-- `set_fd2pageno` -/
def setFd2pageno (fd n : Nat) : BufferPool α := { m with fd2pageno := Function.update m.fd2pageno fd n }

end BufferPool

namespace Server

variable {α : Type} (s : Server α)

def pool : BufferPool α := s.clients.pool

def withPool (m : BufferPool α) : Server α := { s with clients := { s.clients with pool := m } }

/-- `c` is put into a page of the file. -/
def put (path : Path) (p : Nat) (c : α) : Server α :=
  { s with content := Function.update s.content path (Function.update (s.content path) p c) }

/-- The file is made. -/
def make (path : Path) (c : File α) (n : Nat) : Server α :=
  { s with
    files := Function.update s.files path (some c)
    content := Function.update s.content path c.pages
    allotted := Function.update s.allotted path n }

/-- `DiskManager::open_file`, which gives a file that is open its descriptor. -/
def openFile (path : Path) (fd : Nat) : Option (Nat × Server α) :=
  match s.files path, s.path2fd path with
  | none, _ => none
  | some _, some fd => some (fd, s)
  | some c, none =>
      if s.fd2path fd = none then
        some (fd, { s.withPool (s.pool.mount fd c) with
          path2fd := Function.update s.path2fd path (some fd)
          fd2path := Function.update s.fd2path fd (some path) })
      else none

/-- `DiskManager::close_file` -/
def closeFile (fd : Nat) : Option (Server α) :=
  (s.fd2path fd).map fun path =>
    { s with
      files := Function.update s.files path (some ⟨fun p => s.pool.disk ⟨fd, p⟩, s.pool.fileLen fd⟩)
      path2fd := Function.update s.path2fd path none
      fd2path := Function.update s.fd2path fd none
      allotted := Function.update s.allotted path (s.pool.fd2pageno fd) }

/-- The file header is written past the pool. -/
def writeHdr (fd : Nat) (hdr : α) : Server α :=
  let s' := s.withPool (s.pool.writePart ⟨fd, 0⟩ hdr)
  match s.fd2path fd with
  | some path => s'.put path 0 hdr
  | none => s'

/-- The counter that the constructor of `RmFileHandle` sets. -/
def tablePageNo (numPages : α → Nat) (fd : Nat) : Nat := numPages (s.pool.disk ⟨fd, 0⟩)

/-- The counter that the constructor of `IxIndexHandle` sets. -/
def indexPageNo (fd : Nat) : Nat := s.pool.fd2pageno fd + 1

/-- What the file holds on the disk. -/
def onDisk (path : Path) : Option (Nat → α) :=
  match s.path2fd path with
  | some fd => some fun p => s.pool.disk ⟨fd, p⟩
  | none => (s.files path).map File.pages

variable [Zero α] (numPages : α → Nat)

def openTable (path : Path) (fd : Nat) : Option (Server α) :=
  (s.openFile path fd).map fun r => r.2.withPool (r.2.pool.setFd2pageno r.1 (r.2.tablePageNo numPages r.1))

def openIndex (path : Path) (fd : Nat) : Option (Server α) :=
  (s.openFile path fd).map fun r => r.2.withPool (r.2.pool.setFd2pageno r.1 (r.2.indexPageNo r.1))

/-- `RmManager::close_file` -/
def closeTable (fd : Nat) (ids : List PageId) (hdr : α) : Option (Server α) :=
  let s' := s.writeHdr fd hdr
  (s'.withPool (s'.pool.flushAllPages ids)).closeFile fd

/-- `IxManager::close_index`; what the handle had pinned goes with it. -/
def closeIndex (fd : Nat) (ids : List PageId) (hdr : α) : Option (Server α) :=
  let s' := s.writeHdr fd hdr
  let m := (s'.pool.flushAllPages ids).deleteAllPages ids
  ({ s' with clients := ⟨m, s.clients.holds.filter fun k => k.id.fd ≠ fd⟩ }).closeFile fd

/-- A call of the pool by a holder. -/
def call (c : Call α) : Option (Server α) := (Buffer.step s.clients c).map fun cl => { s with clients := cl }

omit s in
def step (s : Server α) : FileCall α → Option (Server α)
  | .createTable path hdr =>
      if s.files path = none then some (s.make path ⟨Function.update (fun _ => 0) 0 hdr, 0⟩ 1) else none
  | .createIndex path fd hdr leafHeader root =>
      if s.files path = none ∧ s.fd2path fd = none then
        some ((s.withPool (s.pool.setFd2pageno fd (ixInitNumPages - 1))).make path
          ⟨Function.update (Function.update (Function.update (fun _ => 0) 0 hdr) 1 leafHeader) 2 root,
            ixInitNumPages⟩ ixInitNumPages)
      else none
  | .destroy path =>
      if s.path2fd path = none ∧ s.files path ≠ none then
        some { s with files := Function.update s.files path none }
      else none
  | .openTable path fd => s.openTable numPages path fd
  | .openIndex path fd => s.openIndex path fd
  | .closeTable fd ids hdr => if s.pool.Lists fd ids then s.closeTable fd ids hdr else none
  | .closeIndex fd ids hdr => if s.pool.Lists fd ids then s.closeIndex fd ids hdr else none
  | .fetch h id => s.call (.fetch h id)
  | .newPage h fd => s.call (.newPage h fd)
  | .change h id c =>
      (s.call (.change h id c)).map fun s' =>
        match s.fd2path id.fd with
        | some path => s'.put path id.pageNo c
        | none => s'
  | .unpin h id d => s.call (.unpin h id d)

def start (poolSize : Nat) : Server α where
  clients := Clients.start poolSize (fun _ => 0) (fun _ => 0) fun _ => 0
  files _ := none
  path2fd _ := none
  fd2path _ := none
  content _ _ := 0
  allotted _ := 0

omit [Zero α] in
/-- The pages that the file was given so far. -/
def given (path : Path) : Nat :=
  match s.path2fd path with
  | some fd => s.pool.fd2pageno fd
  | none => s.allotted path

/-- Opening the file sets the counter to no less than the pages the file was given, and the pool has no
page under the descriptor if it is a new one. -/
def OpensWell (path : Path) (fd : Nat) (pageNo : Server α → Nat → Nat) : Prop :=
  ∀ r ∈ s.openFile path fd,
    match s.path2fd path with
    | some _ => s.pool.fd2pageno r.1 ≤ pageNo r.2 r.1
    | none => s.allotted path ≤ pageNo r.2 r.1 ∧ ∀ id ∈ s.pool.pageTable.keys, id.fd ≠ r.1

/-- Besides: the header page of a file that is closed is not in the pool, pages that the file was given are
fetched of files that are open, under handles not used twice, and given back dirty if changed. -/
def Careful [DecidableEq α] (s : Server α) : FileCall α → Prop
  | .openTable path fd => s.OpensWell path fd fun s fd => s.tablePageNo numPages fd
  | .openIndex path fd => s.OpensWell path fd indexPageNo
  | .closeTable fd _ _ | .closeIndex fd _ _ => s.pool.pageTable.lookup ⟨fd, 0⟩ = none
  | .fetch h id =>
      (∀ k ∈ s.clients.holds, k.handle ≠ h) ∧ s.fd2path id.fd ≠ none ∧ id.pageNo < s.pool.fd2pageno id.fd
  | .newPage h fd => (∀ k ∈ s.clients.holds, k.handle ≠ h) ∧ s.fd2path fd ≠ none
  | .unpin h id d => Proper s.clients (.unpin h id d)
  | _ => True

end Server

instance decidableOpensWell {α : Type} (s : Server α) (path : Path) (fd : Nat) (n : Server α → Nat → Nat) :
    Decidable (s.OpensWell path fd n) := by
  unfold Server.OpensWell
  cases s.path2fd path with
  | none => exact inferInstanceAs (Decidable (∀ r ∈ s.openFile path fd, _ ∧ _))
  | some _ => exact inferInstanceAs (Decidable (∀ r ∈ s.openFile path fd, _))

instance decidableFileCareful {α : Type} [Zero α] [DecidableEq α] (numPages : α → Nat) (s : Server α)
    (a : FileCall α) :
    Decidable (Server.Careful numPages s a) :=
  match a with
  | .openTable path fd => inferInstanceAs (Decidable (s.OpensWell path fd fun s fd => s.tablePageNo numPages fd))
  | .openIndex path fd => inferInstanceAs (Decidable (s.OpensWell path fd Server.indexPageNo))
  | .closeTable .. | .closeIndex .. => inferInstanceAs (Decidable (_ = none))
  | .fetch .. => inferInstanceAs (Decidable (_ ∧ _ ∧ _))
  | .newPage .. => inferInstanceAs (Decidable (_ ∧ _))
  | .unpin h id d => inferInstanceAs (Decidable (Proper s.clients (.unpin h id d)))
  | .createTable .. | .createIndex .. | .destroy .. | .change .. => inferInstanceAs (Decidable True)

/-! ## Calls of the pool -/

section Pool

variable {α : Type} {m m' : BufferPool α} {place : FrameId → Place} {id : PageId} {r : Reserved}

/-- What a call that brings page `id` in does to the page table and the disk. -/
structure Brought (m m' : BufferPool α) (place : FrameId → Place) (id : PageId) : Prop where
  lookup : ∀ id', m'.pageTable.lookup id' ≠ none → id' = id ∨ m.pageTable.lookup id' ≠ none
  disk : ∀ id', m'.disk id' = m.disk id' ∨ ∃ f, place f = .resident id' ∧ m'.disk id' = (m.pages f).data

theorem Taken.lookup (hwf : Wf m place) (ht : Taken m place r m') (hid : m'.pageTable.lookup id ≠ none) :
    m.pageTable.lookup id ≠ none := by
  obtain ⟨f, hf⟩ := Option.ne_none_iff_exists'.1 hid
  have hplace := (ht.wf.table id f).1 hf
  by_cases hfr : f = r.frame
  · subst hfr
    rw [Function.update_self] at hplace
    cases hplace
  · rw [Function.update_of_ne hfr] at hplace
    rw [(hwf.table id f).2 hplace]
    exact Option.some_ne_none f

theorem Taken.disk_writeOld (ht : Taken m place r m') (id : PageId) :
    (m'.writeOld r).disk id = m.disk id ∨
      ∃ f, place f = .resident id ∧ (m'.writeOld r).disk id = (m.pages f).data := by
  by_cases hid : r.writes id
  · right
    obtain ⟨hf, -⟩ := ht.writes_iff hid
    refine ⟨r.frame, hf, ?_⟩
    unfold BufferPool.writeOld BufferPool.writeBack
    rw [hid.1, hid.2]
    show Function.update m'.disk id (m'.pages r.frame).data id = _
    rw [Function.update_self, ht.pages, Function.update_self]
  · exact .inl ((writeOld_disk hid).trans (congrFun ht.disk id))

/-- A page is entered in the frame that was taken. -/
theorem Taken.brought (hwf : Wf m place) (ht : Taken m place r m') {m2 : BufferPool α}
    (htable : m2.pageTable = m'.pageTable.insert id r.frame) (hdisk : m2.disk = (m'.writeOld r).disk) :
    Brought m m2 place id := by
  refine ⟨fun id' hid' => ?_, fun id' => ?_⟩
  · by_cases hid : id' = id
    · exact .inl hid
    · rw [htable, AList.lookup_insert_ne hid] at hid'
      exact .inr (ht.lookup hwf hid')
  · rw [hdisk]
    exact ht.disk_writeOld id'

theorem fetchPage_brought (hwf : Wf m place) {f : Except InternalError (Option FrameId)}
    (hfetch : m.fetchPage id = some (f, m')) :
    Brought m m' place id ∧ m'.fd2pageno = m.fd2pageno := by
  have hsame : ∀ {m' : BufferPool α}, m'.pageTable = m.pageTable → m'.disk = m.disk → Brought m m' place id := by
    intro m' htable hdisk
    exact ⟨fun id' hid => .inr (by rwa [htable] at hid), fun id' => .inl (by rw [hdisk])⟩
  unfold BufferPool.fetchPage at hfetch
  split at hfetch
  · cases hfetch
  · split at hfetch
    · split at hfetch
      · cases hfetch
        exact ⟨hsame rfl rfl, rfl⟩
      · split at hfetch
        · cases hfetch
        · split at hfetch
          · cases hfetch
          · cases hfetch
            unfold BufferPool.pinResident
            split <;> exact ⟨hsame rfl rfl, rfl⟩
    · simp only at hfetch
      split at hfetch
      · cases hfetch
        exact ⟨hsame rfl rfl, rfl⟩
      · next r m1 hr =>
          have hwf1 : Wf (m.setPageIo id true) place := hwf.congr rfl rfl rfl rfl rfl
          have ht := hwf1.reserveVictim hr
          obtain ⟨-, -, htable, -, -, -, -, hno⟩ := writeOld_fields (m := m1) (r := r)
          split at hfetch
          · cases hfetch
            have hb : Brought (m.setPageIo id true)
                (((((m1.writeOld r).readInto r.frame id).publish id r.frame).setPageIo id false).setFrameIo
                  r.frame false) place id := by
              refine ht.brought hwf1 ?_ rfl
              show (m1.writeOld r).pageTable.insert id r.frame = _
              rw [htable]
            exact ⟨⟨hb.lookup, hb.disk⟩, hno.trans ht.counters⟩
          · cases hfetch
            have hl : ∀ id', m1.pageTable.lookup id' ≠ none → (m.setPageIo id true).pageTable.lookup id' ≠ none :=
              fun id' hid' => ht.lookup hwf1 hid'
            refine ⟨⟨fun id' hid' => .inr (hl id' ?_), fun id' => ht.disk_writeOld id'⟩, hno.trans ht.counters⟩
            rw [← htable]
            exact hid'

theorem newPage_brought [Zero α] (hwf : Wf m place) (fd : Nat) :
    Brought m (m.newPage fd).2 place (m.nextPageId fd) ∧
      (m.newPage fd).2.fd2pageno = Function.update m.fd2pageno fd (m.fd2pageno fd + 1) := by
  unfold BufferPool.newPage
  simp only
  split
  · exact ⟨⟨fun _ hid => .inr hid, fun _ => .inl rfl⟩, rfl⟩
  · next r m1 hr =>
      have hwf1 : Wf (m.allocatePage fd) place := hwf.congr rfl rfl rfl rfl rfl
      have ht := hwf1.reserveVictim hr
      obtain ⟨-, -, htable, -, -, -, -, hno⟩ := writeOld_fields (m := m1) (r := r)
      have hb : Brought (m.allocatePage fd)
          (((m1.writeOld r).publishNew (m.nextPageId fd) r.frame).setFrameIo r.frame false) place
          (m.nextPageId fd) := by
        refine ht.brought hwf1 ?_ rfl
        show (m1.writeOld r).pageTable.insert (m.nextPageId fd) r.frame = _
        rw [htable]
      exact ⟨⟨hb.lookup, hb.disk⟩, hno.trans ht.counters⟩

theorem unpinPage_fields (m : BufferPool α) (id : PageId) (d : Bool) :
    (m.unpinPage id d).2.pageTable = m.pageTable ∧ (m.unpinPage id d).2.disk = m.disk ∧
      (m.unpinPage id d).2.fd2pageno = m.fd2pageno := by
  unfold BufferPool.unpinPage BufferPool.dropPin BufferPool.lruUnpin
  repeat' split
  all_goals exact ⟨rfl, rfl, rfl⟩

/-- Writing out pages leaves the tables, the counters and the other pages on the disk. -/
theorem flushAllPages_fields (ids : List PageId) : ∀ m : BufferPool α,
    (m.flushAllPages ids).pageTable = m.pageTable ∧ (m.flushAllPages ids).fd2pageno = m.fd2pageno ∧
      ∀ id, id ∉ ids → (m.flushAllPages ids).disk id = m.disk id := by
  unfold BufferPool.flushAllPages
  induction ids with
  | nil => exact fun m => ⟨rfl, rfl, fun _ _ => rfl⟩
  | cons id ids ih =>
      intro m
      obtain ⟨htable, hno, hdisk⟩ := ih (m.flushEntry id)
      have hentry : (m.flushEntry id).pageTable = m.pageTable ∧ (m.flushEntry id).fd2pageno = m.fd2pageno ∧
          ∀ id', id' ≠ id → (m.flushEntry id).disk id' = m.disk id' := by
        unfold BufferPool.flushEntry BufferPool.flushPage
        split
        · exact ⟨rfl, rfl, fun _ _ => rfl⟩
        · exact ⟨rfl, rfl, fun id' hid => Function.update_of_ne hid ..⟩
      refine ⟨htable.trans hentry.1, hno.trans hentry.2.1, fun id' hid => ?_⟩
      rw [List.mem_cons, not_or] at hid
      exact (hdisk id' hid.2).trans (hentry.2.2 id' hid.1)

theorem pushFree_foldl (freed : List FrameId) : ∀ m : BufferPool α,
    (freed.foldl BufferPool.pushFree m).fd2pageno = m.fd2pageno ∧
      (freed.foldl BufferPool.pushFree m).disk = m.disk := by
  induction freed with
  | nil => exact fun m => ⟨rfl, rfl⟩
  | cons f freed ih => exact fun m => ih (m.pushFree f)

/-- So does dropping pages. -/
theorem deleteAllPages_fields [Zero α] (m : BufferPool α) (ids : List PageId) :
    (m.deleteAllPages ids).fd2pageno = m.fd2pageno ∧
      ∀ id, id ∉ ids → (m.deleteAllPages ids).disk id = m.disk id := by
  have hentry : ∀ (m : BufferPool α) id, (m.dropEntry id).2.fd2pageno = m.fd2pageno ∧
      ∀ id', id' ≠ id → (m.dropEntry id).2.disk id' = m.disk id' := by
    intro m id
    unfold BufferPool.dropEntry
    split
    · exact ⟨rfl, fun _ _ => rfl⟩
    · next f _ =>
        rw [writeBack_some]
        refine ⟨rfl, fun id' hid => ?_⟩
        show (if (m.pages f).isDirty = true then m.writePage id (m.pages f).data else m).disk id' = m.disk id'
        split
        · exact Function.update_of_ne hid ..
        · rfl
  have hentries : ∀ (ids : List PageId) (m : BufferPool α) freed,
      (m.dropEntries freed ids).2.fd2pageno = m.fd2pageno ∧
        ∀ id, id ∉ ids → (m.dropEntries freed ids).2.disk id = m.disk id := by
    intro ids
    induction ids with
    | nil => exact fun m freed => ⟨rfl, fun _ _ => rfl⟩
    | cons id ids ih =>
        intro m freed
        obtain ⟨hno, hdisk⟩ := ih (m.dropEntry id).2 (freed ++ (m.dropEntry id).1.toList)
        obtain ⟨hno1, hdisk1⟩ := hentry m id
        refine ⟨hno.trans hno1, fun id' hid => ?_⟩
        rw [List.mem_cons, not_or] at hid
        exact (hdisk id' hid.2).trans (hdisk1 id' hid.1)
  obtain ⟨hno, hdisk⟩ := hentries ids m []
  obtain ⟨hno', hdisk'⟩ := pushFree_foldl (m.dropEntries [] ids).1 (m.dropEntries [] ids).2
  exact ⟨hno'.trans hno, fun id hid => (congrFun hdisk' id).trans (hdisk id hid)⟩

end Pool

/-! ## Each file keeps to itself -/

variable {α : Type} {s s' : Server α} {place place' : FrameId → Place} {left left' : PageId → α}
  {kept : PageId → Prop}

/-- The pool holds what was put into the open files, `left` by descriptor, and the disk has that of the others. -/
structure Served (s : Server α) (place : FrameId → Place) (left : PageId → α) : Prop where
  sim : Sim s.clients place left fun _ => False
  paths : ∀ path fd, s.path2fd path = some fd ↔ s.fd2path fd = some path
  isFile : ∀ path fd, s.path2fd path = some fd → s.files path ≠ none
  opened : ∀ path fd, s.path2fd path = some fd → ∀ p, left ⟨fd, p⟩ = s.content path p
  closed : ∀ path c, s.path2fd path = none → s.files path = some c → c.pages = s.content path
  given_pos : ∀ path, s.files path ≠ none → 0 < s.given path
  resident : ∀ path fd p, s.path2fd path = some fd → s.pool.pageTable.lookup ⟨fd, p⟩ ≠ none →
    p < s.pool.fd2pageno fd

/-- Beyond the pages it was given a file holds zeros. -/
def Unused [Zero α] (s : Server α) : Prop :=
  ∀ path, s.files path ≠ none → ∀ p, s.given path ≤ p → s.content path p = 0

/-- What a file holds on the disk changes only to what was put into that file. -/
def Apart (s s' : Server α) : Prop :=
  ∀ path c', s'.onDisk path = some c' → ∀ p, c' p = s'.content path p ∨ ∃ c, s.onDisk path = some c ∧ c' p = c p

theorem Apart.trans {s1 s2 : Server α} (h : Apart s s1) (h' : Apart s1 s2) (hcontent : s2.content = s1.content) :
    Apart s s2 := by
  intro path c2 h2 p
  rcases h' path c2 h2 p with hp | ⟨c1, h1, hp⟩
  · exact .inl hp
  · rw [hp, hcontent]
    exact h path c1 h1 p

theorem Server.onDisk_open (s : Server α) {path : Path} {fd : Nat} (h : s.path2fd path = some fd) :
    s.onDisk path = some fun p => s.pool.disk ⟨fd, p⟩ := by
  unfold Server.onDisk
  rw [h]

theorem Server.onDisk_closed (s : Server α) {path : Path} (h : s.path2fd path = none) :
    s.onDisk path = (s.files path).map File.pages := by
  unfold Server.onDisk
  rw [h]

theorem Server.given_open (s : Server α) {path : Path} {fd : Nat} (h : s.path2fd path = some fd) :
    s.given path = s.pool.fd2pageno fd := by
  unfold Server.given
  rw [h]

theorem Server.given_closed (s : Server α) {path : Path} (h : s.path2fd path = none) : s.given path = s.allotted path := by
  unfold Server.given
  rw [h]

theorem Served.fd_inj (h : Served s place left) {path path' : Path} {fd : Nat} (hp : s.path2fd path = some fd)
    (hp' : s.path2fd path' = some fd) : path = path' :=
  Option.some.inj (((h.paths path fd).1 hp).symm.trans ((h.paths path' fd).1 hp'))

/-- A step of the pool alone. -/
theorem Served.apart (h : Served s place left) {cl : Clients α}
    (hdisk : ∀ id, cl.pool.disk id = s.pool.disk id ∨ cl.pool.disk id = left id) :
    Apart s { s with clients := cl } := by
  intro path c' hc' p
  cases hp : s.path2fd path with
  | none =>
      rw [Server.onDisk_closed { s with clients := cl } hp] at hc'
      exact .inr ⟨c', (Server.onDisk_closed s hp).trans hc', rfl⟩
  | some fd =>
      rw [Server.onDisk_open { s with clients := cl } hp] at hc'
      cases hc'
      rcases hdisk ⟨fd, p⟩ with hd | hd
      · exact .inr ⟨_, Server.onDisk_open s hp, hd⟩
      · exact .inl (hd.trans (h.opened path fd hp p))

/-- The page numbers and what the disk has are changed behind the holders. -/
theorem Sim.withDisk {s : Clients α} (h : Sim s place left kept) {d : PageId → α} {l n : Nat → Nat}
    (hres : ∀ id f, place f = .resident id → left' id = left id ∧ d id = s.pool.disk id)
    (haway : ∀ id, (∀ f, place f ≠ .resident id) → d id = left' id) :
    Sim { s with pool := { s.pool with disk := d, fileLen := l, fd2pageno := n } } place left' fun _ => False := by
  have hst := h.good.stored
  refine ⟨⟨⟨h.good.settled.wf.congr rfl rfl rfl rfl rfl, h.good.settled.places, h.good.settled.pageIo,
    h.good.settled.frameIo⟩, ?_, ?_, ?_⟩, h.held, h.handles, h.pin⟩
  · intro id f hf
    show _ = left' id
    rw [(hres id f hf).1]
    exact hst.data id f hf
  · intro id f hf hclean
    refine (hst.clean id f hf hclean).imp_left fun ho => ⟨?_, fun hk => hk.elim⟩
    show d id = left' id
    rw [(hres id f hf).1, (hres id f hf).2]
    exact ho.1
  · exact fun id hid => .inl ⟨haway id hid, fun hk => hk.elim⟩

theorem Sim.forget {s : Clients α} (h : Sim s place left kept) : Sim s place left fun _ => False :=
  ⟨⟨h.good.settled, h.good.stored.forget⟩, h.held, h.handles, h.pin⟩

/-- A step of the pool that leaves the files, the contents apart. -/
theorem Served.clients (h : Served s place left) {cl : Clients α} {content : Path → Nat → α}
    (hsim : Sim cl place' left' kept) (hleft : ∀ path fd, s.path2fd path = some fd → ∀ p, left' ⟨fd, p⟩ = content path p)
    (hclosed : ∀ path, s.path2fd path = none → content path = s.content path)
    (hcount : ∀ path fd, s.path2fd path = some fd → s.pool.fd2pageno fd ≤ cl.pool.fd2pageno fd)
    (hres : ∀ path fd p, s.path2fd path = some fd → cl.pool.pageTable.lookup ⟨fd, p⟩ ≠ none →
      p < cl.pool.fd2pageno fd) :
    Served { s with clients := cl, content := content } place' left' := by
  refine ⟨hsim.forget, h.paths, h.isFile, hleft, ?_, ?_, hres⟩
  · intro path c hp hc
    rw [h.closed path c hp hc]
    exact (hclosed path hp).symm
  · intro path hf
    have hpos := h.given_pos path hf
    cases hp : s.path2fd path with
    | none =>
        rw [Server.given_closed { s with clients := cl, content := content } hp]
        rwa [Server.given_closed s hp] at hpos
    | some fd =>
        rw [Server.given_open { s with clients := cl, content := content } hp]
        rw [Server.given_open s hp] at hpos
        exact hpos.trans_le (hcount path fd hp)

section Steps

variable [Zero α]

theorem Unused.clients (h : Unused s) {cl : Clients α}
    (hcount : ∀ path fd, s.path2fd path = some fd → s.pool.fd2pageno fd ≤ cl.pool.fd2pageno fd) :
    Unused { s with clients := cl } := by
  intro path hf p hle
  refine h path hf p ?_
  cases hp : s.path2fd path with
  | none =>
      rw [Server.given_closed { s with clients := cl } hp] at hle
      rwa [Server.given_closed s hp]
  | some fd =>
      rw [Server.given_open { s with clients := cl } hp] at hle
      rw [Server.given_open s hp]
      exact (hcount path fd hp).trans hle

theorem Served.fetch (h : Served s place left) (hun : Unused s) {hd : Nat} {id : PageId}
    (hfresh : ∀ k ∈ s.clients.holds, k.handle ≠ hd) (hlt : id.pageNo < s.pool.fd2pageno id.fd)
    (hstep : s.call (.fetch hd id) = some s') :
    (∃ place' left', Served s' place' left' ∧ Unused s') ∧ Apart s s' := by
  obtain ⟨cl, hcl, rfl⟩ := Option.map_eq_some_iff.1 hstep
  classical
  obtain ⟨place', hsim, -⟩ := h.sim.step (c := .fetch hd id) hfresh hcl
  obtain ⟨⟨f, m⟩, hfetch, rfl⟩ := Option.map_eq_some_iff.1 hcl
  obtain ⟨hb, hno⟩ := fetchPage_brought h.sim.good.settled.wf hfetch
  have hpool : (s.clients.gets hd id (Clients.returned f) m).pool = m := by
    cases Clients.returned f <;> rfl
  have hcount : ∀ path fd, s.path2fd path = some fd → s.pool.fd2pageno fd ≤ (s.clients.gets hd id (Clients.returned f) m).pool.fd2pageno fd := by
    intro _ fd _
    rw [hpool, hno]
    exact le_rfl
  refine ⟨⟨place', left, h.clients hsim h.opened (fun _ _ => rfl) hcount ?_, hun.clients hcount⟩, h.apart ?_⟩
  · intro path fd p hp hl
    rw [hpool] at hl ⊢
    rw [hno]
    rcases hb.lookup ⟨fd, p⟩ hl with rfl | hl
    · exact hlt
    · exact h.resident path fd p hp hl
  · intro id'
    rw [hpool]
    rcases hb.disk id' with hd | ⟨g, hg, hd⟩
    · exact .inl hd
    · exact .inr (hd.trans (h.sim.good.stored.data id' g hg))

/-- The next page that a file is given is not in the pool, and holds zeros on the disk. -/
theorem Served.next (h : Served s place left) (hun : Unused s) {path : Path} {fd : Nat}
    (hp : s.path2fd path = some fd) :
    s.pool.pageTable.lookup (s.pool.nextPageId fd) = none ∧ s.pool.disk (s.pool.nextPageId fd) = 0 := by
  have hl : s.pool.pageTable.lookup (s.pool.nextPageId fd) = none := by
    by_contra hc
    exact absurd (h.resident path fd _ hp hc) (lt_irrefl _)
  have haway := h.sim.good.settled.wf.lookup_none.1 hl
  have hdisk : s.pool.disk (s.pool.nextPageId fd) = left (s.pool.nextPageId fd) :=
    ((h.sim.good.stored.away _ haway).resolve_right fun hc => hc).1
  refine ⟨hl, hdisk.trans ((h.opened path fd hp _).trans ?_)⟩
  exact hun path (h.isFile path fd hp) _ (le_of_eq (Server.given_open s hp))

theorem Served.newPage (h : Served s place left) (hun : Unused s) {hd : Nat} {path : Path} {fd : Nat}
    (hfresh : ∀ k ∈ s.clients.holds, k.handle ≠ hd) (hp : s.path2fd path = some fd)
    (hstep : s.call (.newPage hd fd) = some s') :
    (∃ place' left', Served s' place' left' ∧ Unused s') ∧ Apart s s' := by
  obtain ⟨cl, hcl, rfl⟩ := Option.map_eq_some_iff.1 hstep
  classical
  obtain ⟨place', hsim, -⟩ := h.sim.step (c := .newPage hd fd) ⟨hfresh, h.next hun hp⟩ hcl
  cases hcl
  obtain ⟨hb, hno⟩ := newPage_brought h.sim.good.settled.wf fd
  have hpool : ∀ (f : Option FrameId) m, (s.clients.gets hd (s.clients.pool.nextPageId fd) f m).pool = m := by
    intro f m
    cases f <;> rfl
  have hcount : ∀ path' fd', s.path2fd path' = some fd' → s.pool.fd2pageno fd' ≤ (s.clients.pool.newPage fd).2.fd2pageno fd' := by
    intro _ fd' _
    rw [hno]
    by_cases hf : fd' = fd
    · subst hf
      rw [Function.update_self]
      exact Nat.le_succ _
    · rw [Function.update_of_ne hf]
      exact le_rfl
  refine ⟨⟨place', left, h.clients hsim h.opened (fun _ _ => rfl) ?_ ?_, hun.clients ?_⟩, h.apart ?_⟩
  · rw [hpool]
    exact hcount
  · intro path' fd' p hp' hl
    rw [hpool] at hl ⊢
    rcases hb.lookup ⟨fd', p⟩ hl with hid | hl
    · obtain ⟨rfl, rfl⟩ := PageId.mk.inj hid
      rw [hno, Function.update_self]
      exact Nat.lt_succ_self _
    · exact (h.resident path' fd' p hp' hl).trans_le (hcount path' fd' hp')
  · rw [hpool]
    exact hcount
  · intro id'
    rw [hpool]
    rcases hb.disk id' with hd | ⟨g, hg, hd⟩
    · exact .inl hd
    · exact .inr (hd.trans (h.sim.good.stored.data id' g hg))

theorem Served.change (h : Served s place left) (hun : Unused s) {hd : Nat} {id : PageId} {c : α}
    {s1 : Server α} (hstep : s.call (.change hd id c) = some s1)
    (hs' : s' = match s.fd2path id.fd with
      | some path => s1.put path id.pageNo c
      | none => s1) :
    (∃ place' left', Served s' place' left' ∧ Unused s') ∧ Apart s s' := by
  obtain ⟨cl, hcl, rfl⟩ := Option.map_eq_some_iff.1 hstep
  classical
  obtain ⟨place', hsim, -⟩ := h.sim.step (c := .change hd id c) trivial hcl
  obtain ⟨k, hfind, rfl⟩ := Option.map_eq_some_iff.1 hcl
  have hfind' : s.clients.holds.find? (fun k => k.handle = hd ∧ k.id = id) = some k := hfind
  obtain ⟨-, rfl⟩ : k.handle = hd ∧ k.id = id := by simpa using List.find?_some hfind'
  have hk := h.sim.held k (List.mem_of_find?_eq_some hfind')
  have hl : s.pool.pageTable.lookup k.id ≠ none := by
    have hres := (h.sim.good.settled.wf.table k.id k.frame).2 hk
    intro hc
    rw [show s.clients.pool.pageTable.lookup k.id = none from hc] at hres
    cases hres
  have hother : ∀ fd p, fd ≠ k.id.fd → Function.update left k.id c ⟨fd, p⟩ = left ⟨fd, p⟩ := by
    intro fd p hfd
    exact Function.update_of_ne (fun hc => hfd (congrArg PageId.fd hc)) ..
  have hsame : ∀ content : Path → Nat → α, Apart s
      { s with clients := ⟨Clients.setData s.clients.pool k.frame c, Clients.mark s.clients.holds hd⟩, content := content } :=
    fun content path c' hc' p => .inr ⟨c', hc', rfl⟩
  cases hpath : s.fd2path k.id.fd with
  | none =>
      rw [hpath] at hs'
      subst hs'
      refine ⟨⟨place', _, h.clients hsim ?_ (fun _ _ => rfl) (fun _ _ _ => le_rfl) h.resident, hun.clients fun _ _ _ => le_rfl⟩,
        hsame s.content⟩
      intro path fd hp p
      refine (hother fd p ?_).trans (h.opened path fd hp p)
      rintro rfl
      rw [(h.paths path k.id.fd).1 hp] at hpath
      cases hpath
  | some path0 =>
      rw [hpath] at hs'
      subst hs'
      have hp0 := (h.paths path0 k.id.fd).2 hpath
      refine ⟨⟨place', _, h.clients hsim ?_ ?_ (fun _ _ _ => le_rfl) h.resident, ?_⟩, hsame _⟩
      · intro path fd hp p
        show Function.update left k.id c ⟨fd, p⟩ = Function.update s.content path0 _ path p
        by_cases hpp : path = path0
        · subst hpp
          obtain rfl : k.id.fd = fd := Option.some.inj (hp0.symm.trans hp)
          rw [Function.update_self]
          by_cases hpage : p = k.id.pageNo
          · subst hpage
            rw [Function.update_self, Function.update_self]
          · rw [Function.update_of_ne hpage, ← h.opened path _ hp0 p]
            refine Function.update_of_ne ?_ ..
            intro hc
            exact hpage (congrArg PageId.pageNo hc)
        · rw [Function.update_of_ne hpp, ← h.opened path fd hp p]
          refine hother fd p ?_
          rintro rfl
          exact hpp (h.fd_inj hp hp0)
      · intro path hp
        refine Function.update_of_ne ?_ ..
        rintro rfl
        rw [hp0] at hp
        cases hp
      · intro path hf p hle
        show Function.update s.content path0 _ path p = 0
        by_cases hpp : path = path0
        · subst hpp
          have hgiven : s.pool.fd2pageno k.id.fd ≤ p := by
            rw [← Server.given_open s hp0]
            exact hle
          have hlt := h.resident path k.id.fd k.id.pageNo hp0 hl
          rw [Function.update_self, Function.update_of_ne (by omega)]
          exact hun path hf p hle
        · rw [Function.update_of_ne hpp]
          exact hun path hf p hle

theorem Served.unpin (h : Served s place left) (hun : Unused s) [DecidableEq α] {hd : Nat} {id : PageId} {d : Bool}
    (hproper : Proper s.clients (.unpin hd id d)) (hstep : s.call (.unpin hd id d) = some s') :
    (∃ place' left', Served s' place' left' ∧ Unused s') ∧ Apart s s' := by
  obtain ⟨cl, hcl, rfl⟩ := Option.map_eq_some_iff.1 hstep
  obtain ⟨place', hsim, -⟩ := h.sim.step hproper hcl
  cases hcl
  obtain ⟨htable, hdisk, hno⟩ := unpinPage_fields s.clients.pool id d
  have hcount : ∀ path fd, s.path2fd path = some fd → s.pool.fd2pageno fd ≤ (s.clients.pool.unpinPage id d).2.fd2pageno fd := by
    intro _ fd _
    rw [hno]
    exact le_rfl
  refine ⟨⟨place', left, h.clients hsim h.opened (fun _ _ => rfl) hcount ?_, hun.clients hcount⟩,
    h.apart fun id' => .inl (congrFun hdisk id')⟩
  intro path fd p hp hl
  show p < (s.clients.pool.unpinPage id d).2.fd2pageno fd
  have hl' : (s.clients.pool.unpinPage id d).2.pageTable.lookup ⟨fd, p⟩ ≠ none := hl
  rw [htable] at hl'
  rw [hno]
  exact h.resident path fd p hp hl'

/-! ## Opening and closing -/

/-- The page counter of a descriptor is set, to no less than it was if a file is open there. -/
theorem Served.count (h : Served s place left) (hun : Unused s) {fd n : Nat}
    (hle : ∀ path, s.path2fd path = some fd → s.pool.fd2pageno fd ≤ n) :
    Served (s.withPool (s.pool.setFd2pageno fd n)) place left ∧ Unused (s.withPool (s.pool.setFd2pageno fd n)) ∧
      Apart s (s.withPool (s.pool.setFd2pageno fd n)) := by
  have hcount : ∀ path fd', s.path2fd path = some fd' →
      s.pool.fd2pageno fd' ≤ Function.update s.pool.fd2pageno fd n fd' := by
    intro path fd' hp
    by_cases hf : fd' = fd
    · subst hf
      rw [Function.update_self]
      exact hle path hp
    · rw [Function.update_of_ne hf]
  refine ⟨h.clients (h.sim.withDisk (fun _ _ _ => ⟨rfl, rfl⟩) ?_) h.opened (fun _ _ => rfl) hcount ?_,
    hun.clients hcount, h.apart fun _ => .inl rfl⟩
  · exact fun id hid => ((h.sim.good.stored.away id hid).resolve_right fun hc => hc).1
  · exact fun path' fd' p hp' hl => (h.resident path' fd' p hp' hl).trans_le (hcount path' fd' hp')

/-- The server behind the opening of a file under a descriptor, with the counter set. -/
def Server.mounted (s : Server α) (path : Path) (fd n : Nat) (c : File α) : Server α :=
  { s.withPool ((s.pool.mount fd c).setFd2pageno fd n) with
    path2fd := Function.update s.path2fd path (some fd)
    fd2path := Function.update s.fd2path fd (some path) }

section Mount

variable {path path' : Path} {fd fd' n : Nat} {c : File α} (h : Served s place left)
include h
omit [Zero α]

/-- The files that are open already stand elsewhere. -/
theorem Served.elsewhere (hp : s.path2fd path = none) (hfd : s.fd2path fd = none) (hp' : s.path2fd path' = some fd') :
    path' ≠ path ∧ fd' ≠ fd := by
  constructor
  · rintro rfl
    rw [hp] at hp'
    cases hp'
  · rintro rfl
    rw [(h.paths path' fd').1 hp'] at hfd
    cases hfd

theorem Served.mounted_open (hp : s.path2fd path = none) (hfd : s.fd2path fd = none)
    (hp' : (s.mounted path fd n c).path2fd path' = some fd') :
    path' = path ∧ fd' = fd ∨ path' ≠ path ∧ fd' ≠ fd ∧ s.path2fd path' = some fd' := by
  have hopen : Function.update s.path2fd path (some fd) path' = some fd' := hp'
  by_cases hpp : path' = path
  · subst hpp
    rw [Function.update_self] at hopen
    exact .inl ⟨rfl, (Option.some.inj hopen).symm⟩
  · rw [Function.update_of_ne hpp] at hopen
    exact .inr ⟨hpp, (h.elsewhere hp hfd hopen).2, hopen⟩

theorem Served.mounted_paths (hp : s.path2fd path = none) (hfd : s.fd2path fd = none) :
    (s.mounted path fd n c).path2fd path' = some fd' ↔ (s.mounted path fd n c).fd2path fd' = some path' := by
  show Function.update s.path2fd path (some fd) path' = some fd' ↔
    Function.update s.fd2path fd (some path) fd' = some path'
  by_cases hpp : path' = path
  · subst hpp
    rw [Function.update_self]
    by_cases hff : fd' = fd
    · subst hff
      rw [Function.update_self]
      exact ⟨fun _ => rfl, fun _ => rfl⟩
    · rw [Function.update_of_ne hff, ← h.paths, hp]
      exact ⟨fun hc => absurd (Option.some.inj hc).symm hff, fun hc => (by cases hc)⟩
  · rw [Function.update_of_ne hpp]
    by_cases hff : fd' = fd
    · subst hff
      rw [Function.update_self, h.paths, hfd]
      exact ⟨fun hc => (by cases hc), fun hc => absurd (Option.some.inj hc).symm hpp⟩
    · rw [Function.update_of_ne hff]
      exact h.paths path' fd'

theorem Served.mounted_given (hp : s.path2fd path = none) (hfd : s.fd2path fd = none) :
    (s.mounted path fd n c).given path' = if path' = path then n else s.given path' := by
  unfold Server.given
  show (match Function.update s.path2fd path (some fd) path' with
    | some fd' => Function.update s.pool.fd2pageno fd n fd'
    | none => s.allotted path') = _
  by_cases hpp : path' = path
  · subst hpp
    rw [Function.update_self, if_pos rfl]
    exact Function.update_self ..
  · rw [Function.update_of_ne hpp, if_neg hpp]
    cases hp' : s.path2fd path' with
    | none => rfl
    | some fd' => exact Function.update_of_ne (h.elsewhere hp hfd hp').2 ..

/-- The pool has no page of the descriptor, so that its frames hold what they held. -/
theorem Served.mounted_sim (hnot : ∀ p, s.pool.pageTable.lookup ⟨fd, p⟩ = none) :
    Sim (s.mounted path fd n c).clients place (fun id => if id.fd = fd then c.pages id.pageNo else left id)
      fun _ => False := by
  refine h.sim.withDisk ?_ ?_
  · intro id f hres
    have hfd : id.fd ≠ fd := by
      intro hc
      have hl := hnot id.pageNo
      rw [← hc, show s.pool.pageTable.lookup id = some f from (h.sim.good.settled.wf.table id f).2 hres] at hl
      cases hl
    exact ⟨if_neg hfd, if_neg hfd⟩
  · intro id hid
    show (if id.fd = fd then c.pages id.pageNo else s.pool.disk id) = _
    split
    · rfl
    · exact ((h.sim.good.stored.away id hid).resolve_right fun hc => hc).1

theorem Served.mounted_apart (hf : s.files path = some c) (hp : s.path2fd path = none) (hfd : s.fd2path fd = none) :
    Apart s (s.mounted path fd n c) := by
  intro path' c' hc' p
  right
  by_cases hpp : path' = path
  · subst hpp
    refine ⟨c.pages, (Server.onDisk_closed s hp).trans (congrArg (Option.map File.pages) hf), ?_⟩
    have hself : (s.mounted path' fd n c).path2fd path' = some fd := Function.update_self ..
    rw [Server.onDisk_open _ hself] at hc'
    cases hc'
    exact if_pos rfl
  · cases hp' : s.path2fd path' with
    | none =>
        have hsame : (s.mounted path fd n c).path2fd path' = none := (Function.update_of_ne hpp ..).trans hp'
        rw [Server.onDisk_closed _ hsame] at hc'
        exact ⟨c', (Server.onDisk_closed s hp').trans hc', rfl⟩
    | some fd' =>
        have hsame : (s.mounted path fd n c).path2fd path' = some fd' := (Function.update_of_ne hpp ..).trans hp'
        rw [Server.onDisk_open _ hsame] at hc'
        cases hc'
        exact ⟨_, Server.onDisk_open s hp', if_neg (h.elsewhere hp hfd hp').2⟩

end Mount

/-- A file is opened under a descriptor of which the pool has no page. -/
theorem Served.mount (h : Served s place left) (hun : Unused s) {path : Path} {fd n : Nat} {c : File α}
    (hf : s.files path = some c) (hp : s.path2fd path = none) (hfd : s.fd2path fd = none)
    (hn : s.allotted path ≤ n) (hkeys : ∀ id ∈ s.pool.pageTable.keys, id.fd ≠ fd) :
    (∃ place' left', Served (s.mounted path fd n c) place' left' ∧ Unused (s.mounted path fd n c)) ∧
      Apart s (s.mounted path fd n c) := by
  have hnot : ∀ p, s.pool.pageTable.lookup ⟨fd, p⟩ = none := by
    intro p
    by_contra hl
    exact hkeys ⟨fd, p⟩ (AList.lookup_isSome.1 (Option.isSome_iff_ne_none.2 hl)) rfl
  have hgiven : s.given path = s.allotted path := Server.given_closed s hp
  have hpos := h.given_pos path (by rw [hf]; exact Option.some_ne_none c)
  refine ⟨⟨place, _, ⟨h.mounted_sim hnot, fun path' fd' => h.mounted_paths hp hfd, ?_, ?_, ?_, ?_, ?_⟩, ?_⟩,
    h.mounted_apart hf hp hfd⟩
  · intro path' fd' hp'
    show s.files path' ≠ none
    rcases h.mounted_open hp hfd hp' with ⟨rfl, -⟩ | ⟨-, -, hp'⟩
    · rw [hf]
      exact Option.some_ne_none c
    · exact h.isFile path' fd' hp'
  · intro path' fd' hp' p
    show (if fd' = fd then c.pages p else left ⟨fd', p⟩) = s.content path' p
    rcases h.mounted_open hp hfd hp' with ⟨rfl, rfl⟩ | ⟨-, hff, hp'⟩
    · rw [if_pos rfl, h.closed path' c hp hf]
    · rw [if_neg hff]
      exact h.opened path' fd' hp' p
  · intro path' c' hp' hc'
    have hnone : Function.update s.path2fd path (some fd) path' = none := hp'
    have hpp : path' ≠ path := by
      rintro rfl
      rw [Function.update_self] at hnone
      cases hnone
    rw [Function.update_of_ne hpp] at hnone
    exact h.closed path' c' hnone hc'
  · intro path' hf'
    rw [h.mounted_given hp hfd]
    split
    · omega
    · exact h.given_pos path' hf'
  · intro path' fd' p hp' hl
    show p < Function.update s.pool.fd2pageno fd n fd'
    rcases h.mounted_open hp hfd hp' with ⟨rfl, rfl⟩ | ⟨-, hff, hp'⟩
    · exact absurd (hnot p) hl
    · rw [Function.update_of_ne hff]
      exact h.resident path' fd' p hp' hl
  · intro path' hf' p hle
    rw [h.mounted_given hp hfd] at hle
    refine hun path' hf' p ?_
    split at hle
    · next hpp =>
        subst hpp
        omega
    · exact hle

/-- The server behind the closing of the file that is open under a descriptor. -/
def Server.unmounted (s : Server α) (path : Path) (fd : Nat) : Server α :=
  { s with
    files := Function.update s.files path (some ⟨fun p => s.pool.disk ⟨fd, p⟩, s.pool.fileLen fd⟩)
    path2fd := Function.update s.path2fd path none
    fd2path := Function.update s.fd2path fd none
    allotted := Function.update s.allotted path (s.pool.fd2pageno fd) }

section Unmount

variable {path path' : Path} {fd fd' : Nat} (h : Served s place left) (hp : s.path2fd path = some fd)
omit [Zero α]

theorem Server.unmounted_files (hpp : path' ≠ path) : (s.unmounted path fd).files path' = s.files path' :=
  Function.update_of_ne hpp ..

theorem Server.unmounted_path2fd (hpp : path' ≠ path) : (s.unmounted path fd).path2fd path' = s.path2fd path' :=
  Function.update_of_ne hpp ..

include hp in
theorem Server.unmounted_given : (s.unmounted path fd).given path' = s.given path' := by
  by_cases hpp : path' = path
  · rw [hpp, Server.given_open s hp, Server.given_closed _ (Function.update_self ..)]
    exact Function.update_self ..
  · cases hp' : s.path2fd path' with
    | none =>
        rw [Server.given_closed s hp', Server.given_closed _ ((Server.unmounted_path2fd hpp).trans hp')]
        exact Function.update_of_ne hpp ..
    | some fd' =>
        rw [Server.given_open s hp', Server.given_open _ ((Server.unmounted_path2fd hpp).trans hp')]
        rfl

include hp in
/-- Closing a file leaves what the disk has of each. -/
theorem Server.unmounted_apart : Apart s (s.unmounted path fd) := by
  intro path' c' hc' p
  right
  by_cases hpp : path' = path
  · subst hpp
    have hfile : (s.unmounted path' fd).files path' = some ⟨fun p => s.pool.disk ⟨fd, p⟩, s.pool.fileLen fd⟩ :=
      Function.update_self ..
    rw [Server.onDisk_closed _ (Function.update_self ..), hfile] at hc'
    exact ⟨c', (Server.onDisk_open s hp).trans hc', rfl⟩
  · refine ⟨c', ?_, rfl⟩
    cases hp' : s.path2fd path' with
    | none =>
        rw [Server.onDisk_closed _ ((Server.unmounted_path2fd hpp).trans hp'), Server.unmounted_files hpp] at hc'
        exact (Server.onDisk_closed s hp').trans hc'
    | some fd' =>
        rw [Server.onDisk_open _ ((Server.unmounted_path2fd hpp).trans hp')] at hc'
        exact (Server.onDisk_open s hp').trans hc'

include h hp

/-- What is open still was so before, elsewhere. -/
theorem Served.unmounted_open (hp' : (s.unmounted path fd).path2fd path' = some fd') :
    path' ≠ path ∧ fd' ≠ fd ∧ s.path2fd path' = some fd' := by
  have hopen : Function.update s.path2fd path none path' = some fd' := hp'
  by_cases hpp : path' = path
  · subst hpp
    rw [Function.update_self] at hopen
    cases hopen
  · rw [Function.update_of_ne hpp] at hopen
    refine ⟨hpp, ?_, hopen⟩
    rintro rfl
    exact hpp (h.fd_inj hopen hp)

theorem Served.unmounted_paths :
    (s.unmounted path fd).path2fd path' = some fd' ↔ (s.unmounted path fd).fd2path fd' = some path' := by
  have hfd := (h.paths path fd).1 hp
  show Function.update s.path2fd path none path' = some fd' ↔ Function.update s.fd2path fd none fd' = some path'
  by_cases hpp : path' = path
  · subst hpp
    rw [Function.update_self]
    by_cases hff : fd' = fd
    · rw [hff, Function.update_self]
      exact ⟨fun hc => (by cases hc), fun hc => (by cases hc)⟩
    · rw [Function.update_of_ne hff, ← h.paths, hp]
      exact ⟨fun hc => (by cases hc), fun hc => absurd (Option.some.inj hc).symm hff⟩
  · rw [Function.update_of_ne hpp]
    by_cases hff : fd' = fd
    · rw [hff, Function.update_self, h.paths, hfd]
      exact ⟨fun hc => absurd (Option.some.inj hc).symm hpp, fun hc => (by cases hc)⟩
    · rw [Function.update_of_ne hff]
      exact h.paths path' fd'

theorem Served.unmounted_isFile (hf : (s.unmounted path fd).files path' ≠ none) : s.files path' ≠ none := by
  by_cases hpp : path' = path
  · rw [hpp]
    exact h.isFile path fd hp
  · rwa [Server.unmounted_files hpp] at hf

end Unmount

/-- A file is closed when the disk has what was put into it. -/
theorem Served.closeFile (h : Served s place left) (hun : Unused s) {fd : Nat}
    (hdisk : ∀ p, s.pool.disk ⟨fd, p⟩ = left ⟨fd, p⟩) (hstep : s.closeFile fd = some s') :
    (Served s' place left ∧ Unused s') ∧ Apart s s' ∧ s'.content = s.content := by
  obtain ⟨path, hfd, hs'⟩ := Option.map_eq_some_iff.1 hstep
  have hp := (h.paths path fd).2 hfd
  have hs' : s.unmounted path fd = s' := hs'
  subst hs'
  refine ⟨⟨⟨h.sim, fun path' fd' => h.unmounted_paths hp, ?_, ?_, ?_, ?_, ?_⟩, ?_⟩, Server.unmounted_apart hp, rfl⟩
  · intro path' fd' hp'
    obtain ⟨hpp, -, hp'⟩ := h.unmounted_open hp hp'
    rw [Server.unmounted_files hpp]
    exact h.isFile path' fd' hp'
  · intro path' fd' hp' p
    exact h.opened path' fd' (h.unmounted_open hp hp').2.2 p
  · intro path' c' hp' hc'
    have hfile : Function.update s.files path (some ⟨fun p => s.pool.disk ⟨fd, p⟩, s.pool.fileLen fd⟩) path' = some c' := hc'
    by_cases hpp : path' = path
    · subst hpp
      rw [Function.update_self] at hfile
      cases hfile
      funext p
      exact (hdisk p).trans (h.opened path' fd hp p)
    · rw [Function.update_of_ne hpp] at hfile
      exact h.closed path' c' ((Server.unmounted_path2fd hpp).symm.trans hp') hfile
  · intro path' hf'
    rw [Server.unmounted_given hp]
    exact h.given_pos path' (h.unmounted_isFile hp hf')
  · intro path' fd' p hp' hl
    exact h.resident path' fd' p (h.unmounted_open hp hp').2.2 hl
  · intro path' hf' p hle
    rw [Server.unmounted_given hp] at hle
    exact hun path' (h.unmounted_isFile hp hf') p hle

/-- The header is written, past the pool. -/
theorem Served.writeHdr (h : Served s place left) (hun : Unused s) {fd : Nat} {path : Path}
    (hfd : s.fd2path fd = some path) (hl : s.pool.pageTable.lookup ⟨fd, 0⟩ = none) (hdr : α) :
    (Served (s.writeHdr fd hdr) place (Function.update left ⟨fd, 0⟩ hdr) ∧ Unused (s.writeHdr fd hdr)) ∧
      Apart s (s.writeHdr fd hdr) := by
  have hp := (h.paths path fd).2 hfd
  have haway := h.sim.good.settled.wf.lookup_none.1 hl
  have heq : s.writeHdr fd hdr = (s.withPool (s.pool.writePart ⟨fd, 0⟩ hdr)).put path 0 hdr := by
    unfold Server.writeHdr
    rw [hfd]
  have hpos : 0 < s.pool.fd2pageno fd := by
    rw [← Server.given_open s hp]
    exact h.given_pos path (h.isFile path fd hp)
  have hpage : ∀ fd' p, (⟨fd', p⟩ : PageId) = ⟨fd, 0⟩ ↔ fd' = fd ∧ p = 0 := by
    intro fd' p
    rw [PageId.mk.injEq]
  rw [heq]
  set s1 := (s.withPool (s.pool.writePart ⟨fd, 0⟩ hdr)).put path 0 hdr
  have hsim : Sim { s.clients with pool := s.pool.writePart ⟨fd, 0⟩ hdr } place
      (Function.update left ⟨fd, 0⟩ hdr) fun _ => False := by
    refine h.sim.withDisk (d := Function.update s.pool.disk ⟨fd, 0⟩ hdr) (l := s.pool.fileLen)
      (n := s.pool.fd2pageno) ?_ ?_
    · intro id f hres
      have hid : id ≠ ⟨fd, 0⟩ := by
        rintro rfl
        exact haway f hres
      exact ⟨Function.update_of_ne hid .., Function.update_of_ne hid ..⟩
    · intro id hid
      by_cases hc : id = ⟨fd, 0⟩
      · rw [hc, Function.update_self, Function.update_self]
      · rw [Function.update_of_ne hc, Function.update_of_ne hc]
        exact ((h.sim.good.stored.away id hid).resolve_right fun hc => hc).1
  refine ⟨⟨h.clients hsim ?_ ?_ (fun _ _ _ => le_rfl) h.resident, ?_⟩, ?_⟩
  · intro path' fd' hp' p
    show Function.update left ⟨fd, 0⟩ hdr ⟨fd', p⟩ = Function.update s.content path _ path' p
    by_cases hpp : path' = path
    · subst hpp
      obtain rfl : fd = fd' := Option.some.inj (hp.symm.trans hp')
      rw [Function.update_self]
      by_cases hp0 : p = 0
      · rw [hp0, Function.update_self, Function.update_self]
      · rw [Function.update_of_ne fun hc => hp0 ((hpage fd p).1 hc).2, h.opened path' fd hp p]
        exact (Function.update_of_ne hp0 ..).symm
    · have hff : fd' ≠ fd := by
        rintro rfl
        exact hpp (h.fd_inj hp' hp)
      rw [Function.update_of_ne hpp, Function.update_of_ne fun hc => hff ((hpage fd' p).1 hc).1]
      exact h.opened path' fd' hp' p
  · intro path' hp'
    refine Function.update_of_ne ?_ ..
    rintro rfl
    rw [hp] at hp'
    cases hp'
  · intro path' hf' p hle
    show Function.update s.content path _ path' p = 0
    by_cases hpp : path' = path
    · subst hpp
      have hle' : s.pool.fd2pageno fd ≤ p := by
        rw [← Server.given_open s hp]
        exact hle
      rw [Function.update_self]
      refine (Function.update_of_ne (by omega) ..).trans (hun path' hf' p hle)
    · rw [Function.update_of_ne hpp]
      exact hun path' hf' p hle
  · intro path' c' hc' p
    cases hp' : s.path2fd path' with
    | none =>
        rw [Server.onDisk_closed s1 hp'] at hc'
        exact .inr ⟨c', (Server.onDisk_closed s hp').trans hc', rfl⟩
    | some fd' =>
        rw [Server.onDisk_open s1 hp'] at hc'
        cases hc'
        show Function.update s.pool.disk ⟨fd, 0⟩ hdr ⟨fd', p⟩ = Function.update s.content path _ path' p ∨ _
        by_cases hid : (⟨fd', p⟩ : PageId) = ⟨fd, 0⟩
        · obtain ⟨rfl, rfl⟩ := (hpage fd' p).1 hid
          obtain rfl := h.fd_inj hp' hp
          left
          rw [Function.update_self, Function.update_self, Function.update_self]
        · exact .inr ⟨_, Server.onDisk_open s hp', Function.update_of_ne hid ..⟩

omit [Zero α] in
theorem mem_lists {m : BufferPool α} {fd : Nat} {ids : List PageId} (h : m.Lists fd ids) {id : PageId} :
    id ∈ ids ↔ m.pageTable.lookup id ≠ none ∧ id.fd = fd := by
  have h' : ids.Perm (m.pageTable.keys.filter fun id => id.fd = fd) := h
  rw [h'.mem_iff, List.mem_filter, decide_eq_true_eq, ← Option.isSome_iff_ne_none, AList.lookup_isSome]
  rfl

/-- `flush_all_pages` of a file. -/
theorem Served.flushAll (h : Served s place left) (hun : Unused s) (ids : List PageId) :
    Served (s.withPool (s.pool.flushAllPages ids)) place left ∧ Unused (s.withPool (s.pool.flushAllPages ids)) ∧
      Apart s (s.withPool (s.pool.flushAllPages ids)) := by
  obtain ⟨hgood, hpins, hids, hdisk⟩ := flushAllPages_spec ids h.sim.good
  obtain ⟨htable, hno, hother⟩ := flushAllPages_fields ids s.clients.pool
  have hsim : Sim { s.clients with pool := s.pool.flushAllPages ids } place left fun _ => False :=
    h.sim.of_good (hgood.mono fun f ho => ho.1) (fun id f hf _ => hf) fun id g hg => ⟨hg, hpins g⟩
  have hcount : ∀ path fd, s.path2fd path = some fd → s.pool.fd2pageno fd ≤ (s.clients.pool.flushAllPages ids).fd2pageno fd := by
    intro _ fd _
    rw [hno]
    exact le_rfl
  refine ⟨h.clients hsim h.opened (fun _ _ => rfl) hcount ?_, hun.clients hcount, h.apart fun id => ?_⟩
  · intro path fd p hp hl
    have hl' : (s.clients.pool.flushAllPages ids).pageTable.lookup ⟨fd, p⟩ ≠ none := hl
    rw [htable] at hl'
    exact (h.resident path fd p hp hl').trans_le (hcount path fd hp)
  · by_cases hid : id ∈ ids
    · exact .inr (hids id hid).1
    · exact .inl (hother id hid)

theorem Served.closeTable (h : Served s place left) (hun : Unused s) {fd : Nat} {ids : List PageId} {hdr : α}
    (hl : s.pool.pageTable.lookup ⟨fd, 0⟩ = none) (hlists : s.pool.Lists fd ids)
    (hstep : s.closeTable fd ids hdr = some s') :
    (∃ place' left', Served s' place' left' ∧ Unused s') ∧ Apart s s' := by
  obtain ⟨path, hfd, -⟩ := Option.map_eq_some_iff.1 hstep
  have hfd' : s.fd2path fd = some path := by
    have hsame : (s.writeHdr fd hdr).fd2path = s.fd2path := by
      unfold Server.writeHdr
      simp only
      split <;> rfl
    rw [← hsame]
    exact hfd
  obtain ⟨⟨h1, hun1⟩, ha1⟩ := h.writeHdr hun hfd' hl hdr
  obtain ⟨h2, hun2, ha2⟩ := h1.flushAll hun1 ids
  have htable : (s.writeHdr fd hdr).pool.pageTable = s.pool.pageTable := by
    unfold Server.writeHdr
    simp only
    split <;> rfl
  have hdisk : ∀ p, ((s.writeHdr fd hdr).pool.flushAllPages ids).disk ⟨fd, p⟩ =
      Function.update left ⟨fd, 0⟩ hdr ⟨fd, p⟩ := by
    intro p
    by_cases hid : (⟨fd, p⟩ : PageId) ∈ ids
    · exact ((flushAllPages_spec ids h1.sim.good).2.2.1 _ hid).1
    · have hnone : ((s.writeHdr fd hdr).pool.flushAllPages ids).pageTable.lookup ⟨fd, p⟩ = none := by
        rw [(flushAllPages_fields ids _).1, htable]
        by_contra hc
        exact hid ((mem_lists hlists).2 ⟨hc, rfl⟩)
      exact ((h2.sim.good.stored.away _ (h2.sim.good.settled.wf.lookup_none.1 hnone)).resolve_right fun hc => hc).1
  obtain ⟨h3, ha3, hcontent⟩ := h2.closeFile hun2 hdisk hstep
  exact ⟨⟨place, _, h3⟩, (ha1.trans ha2 rfl).trans ha3 hcontent⟩

/-- The pages of a file leave the pool when they are on the disk, and what was pinned of them is let go. -/
theorem Sim.deleteAll {s : Clients α} (h : Sim s place left kept) {fd : Nat} {ids : List PageId}
    (hids : ∀ id, id ∈ ids ↔ s.pool.pageTable.lookup id ≠ none ∧ id.fd = fd) :
    ∃ place', Sim ⟨(s.pool.flushAllPages ids).deleteAllPages ids, s.holds.filter fun k => k.id.fd ≠ fd⟩ place' left kept ∧
      (∀ id f, place' f = .resident id → place f = .resident id ∧ id.fd ≠ fd) := by
  obtain ⟨hgood, hpins, -⟩ := flushAllPages_spec ids h.good
  obtain ⟨place', hgood', hgone, hch⟩ := deleteAllPages_spec hgood ids fun id hid f hf ho => ho.2 id hid hf
  have hres : ∀ id f, place' f = .resident id → place f = .resident id ∧ id.fd ≠ fd ∧
      ((s.pool.flushAllPages ids).deleteAllPages ids).pages f = (s.pool.flushAllPages ids).pages f := by
    intro id f hf
    rcases hch f with ⟨hp, hpages⟩ | ⟨_, _, _, hp⟩
    · have hf' : place f = .resident id := hp ▸ hf
      refine ⟨hf', fun hc => ?_, hpages⟩
      refine hgone id ((hids id).2 ⟨?_, hc⟩) f hf
      rw [(h.good.settled.wf.table id f).2 hf']
      exact Option.some_ne_none f
    · rw [hp] at hf
      cases hf
  have hkeep : ∀ k ∈ s.holds, (∀ id ∈ ids, place k.frame ≠ .resident id) ↔ k.id.fd ≠ fd := by
    intro k hk
    have hkp := h.held k hk
    have hl : s.pool.pageTable.lookup k.id ≠ none := by
      rw [(h.good.settled.wf.table k.id k.frame).2 hkp]
      exact Option.some_ne_none _
    refine ⟨fun hc hfd => hc k.id ((hids k.id).2 ⟨hl, hfd⟩) hkp, fun hfd id hid hp => hfd ?_⟩
    rw [Place.resident.inj (hkp.symm.trans hp)]
    exact ((hids id).1 hid).2
  refine ⟨place', ⟨hgood'.mono ?_, ?_, ?_, ?_⟩, fun id f hf => ⟨(hres id f hf).1, (hres id f hf).2.1⟩⟩
  · rintro f ⟨⟨k, hk, rfl, hc⟩, hnot⟩
    exact ⟨k, List.mem_filter.2 ⟨hk, decide_eq_true ((hkeep k hk).1 hnot)⟩, rfl, hc⟩
  · intro k hk
    obtain ⟨hk, hfd⟩ := List.mem_filter.1 hk
    have hfd := of_decide_eq_true hfd
    rcases hch k.frame with ⟨hp, -⟩ | ⟨id, hid, hp, -⟩
    · rw [hp]
      exact h.held k hk
    · exact absurd hp ((hkeep k hk).2 hfd id hid)
  · exact (List.Sublist.map _ List.filter_sublist).nodup h.handles
  · intro id g hg
    obtain ⟨hg', hfd, hpages⟩ := hres id g hg
    show (((s.pool.flushAllPages ids).deleteAllPages ids).pages g).pinCount = _
    rw [hpages, hpins, h.pin id g hg', List.countP_filter]
    refine List.countP_congr fun k hk => ?_
    simp only [decide_eq_true_eq, Bool.and_eq_true, ne_eq]
    refine ⟨fun hc => ⟨hc, ?_⟩, fun hc => hc.1⟩
    have hkp := h.held k hk
    rw [hc] at hkp
    rwa [Place.resident.inj (hkp.symm.trans hg')]

theorem Served.closeIndex (h : Served s place left) (hun : Unused s) {fd : Nat} {ids : List PageId} {hdr : α}
    (hl : s.pool.pageTable.lookup ⟨fd, 0⟩ = none) (hlists : s.pool.Lists fd ids)
    (hstep : s.closeIndex fd ids hdr = some s') :
    (∃ place' left', Served s' place' left' ∧ Unused s') ∧ Apart s s' := by
  have hsame : (s.writeHdr fd hdr).fd2path = s.fd2path ∧ (s.writeHdr fd hdr).pool.pageTable = s.pool.pageTable ∧
      (s.writeHdr fd hdr).clients.holds = s.clients.holds := by
    unfold Server.writeHdr
    simp only
    split <;> exact ⟨rfl, rfl, rfl⟩
  obtain ⟨path, hfd, -⟩ := Option.map_eq_some_iff.1 hstep
  have hfd' : s.fd2path fd = some path := by
    rw [← hsame.1]
    exact hfd
  obtain ⟨⟨h1, hun1⟩, ha1⟩ := h.writeHdr hun hfd' hl hdr
  set s1 := s.writeHdr fd hdr
  have hids : ∀ id, id ∈ ids ↔ s1.clients.pool.pageTable.lookup id ≠ none ∧ id.fd = fd := by
    intro id
    rw [show s1.clients.pool.pageTable = s.pool.pageTable from hsame.2.1]
    exact mem_lists hlists
  obtain ⟨place', hsim, hres⟩ := h1.sim.deleteAll hids
  obtain ⟨-, hno, hother⟩ := flushAllPages_fields ids s1.clients.pool
  obtain ⟨hno', hother'⟩ := deleteAllPages_fields (s1.clients.pool.flushAllPages ids) ids
  set m := (s1.pool.flushAllPages ids).deleteAllPages ids
  have hcount : ∀ path' fd, s1.path2fd path' = some fd → s1.pool.fd2pageno fd ≤ m.fd2pageno fd := by
    intro _ fd _
    rw [show m.fd2pageno = s1.pool.fd2pageno from hno'.trans hno]
  have hgone : ∀ p, m.disk ⟨fd, p⟩ = Function.update left ⟨fd, 0⟩ hdr ⟨fd, p⟩ := by
    intro p
    refine ((hsim.good.stored.away ⟨fd, p⟩ fun f hf => ?_).resolve_right fun hc => hc).1
    exact (hres _ f hf).2 rfl
  have hheld : s1.clients.holds = s.clients.holds := hsame.2.2
  let cl : Clients α := ⟨m, s1.clients.holds.filter fun k => k.id.fd ≠ fd⟩
  have h2 : Served { s1 with clients := cl } place' (Function.update left ⟨fd, 0⟩ hdr) := by
    refine h1.clients hsim h1.opened (fun _ _ => rfl) hcount ?_
    intro path' fd' p hp hl'
    obtain ⟨f, hf⟩ := Option.ne_none_iff_exists'.1 hl'
    have hf' := (hres _ f ((hsim.good.settled.wf.table _ f).1 hf)).1
    refine (h1.resident path' fd' p hp ?_).trans_le (hcount path' fd' hp)
    rw [show s1.pool.pageTable.lookup ⟨fd', p⟩ = some f from (h1.sim.good.settled.wf.table _ f).2 hf']
    exact Option.some_ne_none f
  have ha2 : Apart s1 { s1 with clients := cl } := by
    refine h1.apart fun id => ?_
    by_cases hid : id ∈ ids
    · obtain ⟨-, rfl⟩ := (hids id).1 hid
      exact .inr (hgone id.pageNo)
    · exact .inl ((hother' id hid).trans (hother id hid))
  have hstep' : ({ s1 with clients := cl } : Server α).closeFile fd = some s' := by
    show ({ s1 with clients := ⟨m, s1.clients.holds.filter fun k => k.id.fd ≠ fd⟩ } : Server α).closeFile fd = some s'
    rw [hheld]
    exact hstep
  obtain ⟨h3, ha3, hcontent⟩ := h2.closeFile (hun1.clients hcount) hgone hstep'
  exact ⟨⟨place', _, h3⟩, (ha1.trans ha2 rfl).trans ha3 hcontent⟩

/-! ## Making and removing files -/

/-- A file is made with `c` in it. -/
theorem Served.make (h : Served s place left) (hun : Unused s) {path : Path} {c : File α} {n : Nat}
    (hf : s.files path = none) (hn : 0 < n) (hc : ∀ p, n ≤ p → c.pages p = 0) :
    (Served (s.make path c n) place left ∧ Unused (s.make path c n)) ∧ Apart s (s.make path c n) := by
  have hp : s.path2fd path = none := by
    cases hp : s.path2fd path with
    | none => rfl
    | some fd => exact absurd hf (h.isFile path fd hp)
  have hgiven : (s.make path c n).given path = n := by
    rw [Server.given_closed (s.make path c n) hp]
    exact Function.update_self ..
  have hgiven' : ∀ path', path' ≠ path → (s.make path c n).given path' = s.given path' := by
    intro path' hpp
    cases hp' : s.path2fd path' with
    | none =>
        rw [Server.given_closed s hp', Server.given_closed (s.make path c n) hp']
        exact Function.update_of_ne hpp ..
    | some fd =>
        rw [Server.given_open s hp', Server.given_open (s.make path c n) hp']
        rfl
  have hcontent : (s.make path c n).content path = c.pages := Function.update_self ..
  have hfile : (s.make path c n).files path = some c := Function.update_self ..
  have hcontent' : ∀ path', path' ≠ path → (s.make path c n).content path' = s.content path' := fun path' hpp =>
    Function.update_of_ne hpp ..
  have hfiles : ∀ path', path' ≠ path → (s.make path c n).files path' = s.files path' := fun path' hpp =>
    Function.update_of_ne hpp ..
  have hopen : ∀ path' fd, s.path2fd path' = some fd → path' ≠ path := by
    rintro path' fd hp' rfl
    rw [hp] at hp'
    cases hp'
  refine ⟨⟨⟨h.sim, h.paths, ?_, ?_, ?_, ?_, h.resident⟩, ?_⟩, ?_⟩
  · intro path' fd hp'
    rw [hfiles path' (hopen path' fd hp')]
    exact h.isFile path' fd hp'
  · intro path' fd hp' p
    rw [hcontent' path' (hopen path' fd hp')]
    exact h.opened path' fd hp' p
  · intro path' c' hp' hc'
    by_cases hpp : path' = path
    · subst hpp
      rw [hcontent]
      rw [Option.some.inj (hfile.symm.trans hc')]
    · rw [hfiles path' hpp] at hc'
      rw [hcontent' path' hpp]
      exact h.closed path' c' hp' hc'
  · intro path' hf'
    by_cases hpp : path' = path
    · rw [hpp, hgiven]
      exact hn
    · rw [hfiles path' hpp] at hf'
      rw [hgiven' path' hpp]
      exact h.given_pos path' hf'
  · intro path' hf' p hle
    by_cases hpp : path' = path
    · rw [hpp, hgiven] at hle
      rw [hpp, hcontent]
      exact hc p hle
    · rw [hfiles path' hpp] at hf'
      rw [hgiven' path' hpp] at hle
      rw [hcontent' path' hpp]
      exact hun path' hf' p hle
  · intro path' c' hc' p
    by_cases hpp : path' = path
    · subst hpp
      left
      rw [Server.onDisk_closed (s.make path' c n) hp, hfile] at hc'
      rw [hcontent, ← Option.some.inj hc']
    · refine .inr ⟨c', ?_, rfl⟩
      cases hp' : s.path2fd path' with
      | none =>
          rw [Server.onDisk_closed (s.make path c n) hp', hfiles path' hpp] at hc'
          exact (Server.onDisk_closed s hp').trans hc'
      | some fd =>
          rw [Server.onDisk_open (s.make path c n) hp'] at hc'
          exact (Server.onDisk_open s hp').trans hc'

theorem Served.destroy (h : Served s place left) (hun : Unused s) {path : Path} (hp : s.path2fd path = none)
    (hs' : s' = { s with files := Function.update s.files path none }) :
    (Served s' place left ∧ Unused s') ∧ Apart s s' := by
  subst hs'
  set s' : Server α := { s with files := Function.update s.files path none }
  have hfile : ∀ path' c, s'.files path' = some c → s.files path' = some c := by
    intro path' c hf
    by_cases hpp : path' = path
    · subst hpp
      have hnone : s'.files path' = none := Function.update_self ..
      rw [hnone] at hf
      cases hf
    · exact (Function.update_of_ne hpp ..).symm.trans hf
  have hfiles : ∀ path', s'.files path' ≠ none → s.files path' ≠ none := by
    intro path' hf
    obtain ⟨c, hc⟩ := Option.ne_none_iff_exists'.1 hf
    rw [hfile path' c hc]
    exact Option.some_ne_none c
  refine ⟨⟨⟨h.sim, h.paths, ?_, h.opened, fun path' c hp' hc => h.closed path' c hp' (hfile path' c hc),
    fun path' hf => h.given_pos path' (hfiles path' hf), h.resident⟩,
    fun path' hf p hle => hun path' (hfiles path' hf) p hle⟩, ?_⟩
  · intro path' fd hp'
    have hpp : path' ≠ path := by
      rintro rfl
      rw [show s.path2fd path' = some fd from hp'] at hp
      cases hp
    rw [show s'.files path' = s.files path' from Function.update_of_ne hpp ..]
    exact h.isFile path' fd hp'
  · intro path' c' hc' p
    refine .inr ⟨c', ?_, rfl⟩
    cases hp' : s.path2fd path' with
    | none =>
        rw [Server.onDisk_closed s' hp'] at hc'
        obtain ⟨file, hfile', rfl⟩ := Option.map_eq_some_iff.1 hc'
        rw [Server.onDisk_closed s hp', hfile path' file hfile']
        rfl
    | some fd =>
        rw [Server.onDisk_open s' hp'] at hc'
        exact (Server.onDisk_open s hp').trans hc'

theorem Served.openWith (h : Served s place left) (hun : Unused s) {path : Path} {fd fd' n : Nat} {s1 : Server α}
    (hopen : s.openFile path fd = some (fd', s1))
    (hwell : match s.path2fd path with
      | some _ => s.pool.fd2pageno fd' ≤ n
      | none => s.allotted path ≤ n ∧ ∀ id ∈ s.pool.pageTable.keys, id.fd ≠ fd') :
    (∃ place' left', Served (s1.withPool (s1.pool.setFd2pageno fd' n)) place' left' ∧
        Unused (s1.withPool (s1.pool.setFd2pageno fd' n))) ∧
      Apart s (s1.withPool (s1.pool.setFd2pageno fd' n)) := by
  unfold Server.openFile at hopen
  split at hopen
  · cases hopen
  · next c fd0 hf hp =>
      cases hopen
      rw [hp] at hwell
      obtain ⟨h1, hun1, ha⟩ := h.count hun fun _ _ => hwell
      exact ⟨⟨place, left, h1, hun1⟩, ha⟩
  · next c hf hp =>
      obtain ⟨hfd, hopen⟩ := Option.ite_none_right_eq_some.1 hopen
      cases hopen
      rw [hp] at hwell
      exact h.mount hun hf hp hfd hwell.1 hwell.2

theorem Served.step [DecidableEq α] {numPages : α → Nat} (h : Served s place left) (hun : Unused s)
    {a : FileCall α} (hcare : Server.Careful numPages s a) (hstep : Server.step numPages s a = some s') :
    (∃ place' left', Served s' place' left' ∧ Unused s') ∧ Apart s s' := by
  cases a with
  | createTable path hdr =>
      obtain ⟨hf, hstep⟩ := Option.ite_none_right_eq_some.1 hstep
      cases hstep
      obtain ⟨h1, ha⟩ := h.make (c := ⟨Function.update (fun _ => 0) 0 hdr, 0⟩) hun hf one_pos fun p hp => by
        show Function.update (fun _ => 0 : Nat → α) 0 hdr p = 0
        rw [Function.update_of_ne (by omega)]
      exact ⟨⟨place, left, h1⟩, ha⟩
  | createIndex path fd hdr leafHeader root =>
      obtain ⟨⟨hf, hfd⟩, hstep⟩ := Option.ite_none_right_eq_some.1 hstep
      cases hstep
      obtain ⟨h1, hun1, -⟩ := h.count (n := ixInitNumPages - 1) hun fun path' hp' => by
        rw [(h.paths path' fd).1 hp'] at hfd
        cases hfd
      obtain ⟨h2, ha⟩ := h1.make (c := ⟨Function.update (Function.update (Function.update (fun _ => 0) 0 hdr) 1
          leafHeader) 2 root, ixInitNumPages⟩) hun1 hf (n := ixInitNumPages) (by decide) fun p hp => by
        have hp3 : 3 ≤ p := hp
        show Function.update (Function.update (Function.update (fun _ => 0 : Nat → α) 0 hdr) 1 leafHeader) 2 root p = 0
        rw [Function.update_of_ne (by omega), Function.update_of_ne (by omega), Function.update_of_ne (by omega)]
      exact ⟨⟨place, left, h2⟩, ha⟩
  | destroy path =>
      obtain ⟨⟨hp, -⟩, hstep⟩ := Option.ite_none_right_eq_some.1 hstep
      cases hstep
      obtain ⟨h1, ha⟩ := h.destroy hun hp rfl
      exact ⟨⟨place, left, h1⟩, ha⟩
  | openTable path fd =>
      obtain ⟨⟨fd', s1⟩, hopen, rfl⟩ := Option.map_eq_some_iff.1 hstep
      exact h.openWith hun hopen (hcare _ hopen)
  | openIndex path fd =>
      obtain ⟨⟨fd', s1⟩, hopen, rfl⟩ := Option.map_eq_some_iff.1 hstep
      exact h.openWith hun hopen (hcare _ hopen)
  | closeTable fd ids hdr =>
      obtain ⟨hlists, hstep⟩ := Option.ite_none_right_eq_some.1 hstep
      exact h.closeTable hun hcare hlists hstep
  | closeIndex fd ids hdr =>
      obtain ⟨hlists, hstep⟩ := Option.ite_none_right_eq_some.1 hstep
      exact h.closeIndex hun hcare hlists hstep
  | fetch hd id =>
      obtain ⟨hfresh, -, hlt⟩ := hcare
      exact h.fetch hun hfresh hlt hstep
  | newPage hd fd =>
      obtain ⟨hfresh, hopen⟩ := hcare
      obtain ⟨path, hfd⟩ := Option.ne_none_iff_exists'.1 hopen
      exact h.newPage hun hfresh ((h.paths path fd).2 hfd) hstep
  | change hd id c =>
      obtain ⟨s1, hcall, hs'⟩ := Option.map_eq_some_iff.1 hstep
      exact h.change hun hcall hs'.symm
  | unpin hd id d => exact h.unpin hun hcare hstep

theorem Served.start (poolSize : Nat) :
    Served (Server.start poolSize : Server α) (fun f => if f < poolSize then .free else .outside) fun _ => 0 :=
  ⟨Sim.start poolSize _ _ _, fun _ _ => ⟨fun hc => (by cases hc), fun hc => (by cases hc)⟩,
    fun _ _ hc => (by cases hc), fun _ _ hc => (by cases hc), fun _ _ _ hc => (by cases hc), fun _ hc => absurd rfl hc,
    fun _ _ _ hc => (by cases hc)⟩

/-- In careful runs: a page fetched of an open file holds what was put into that file; the next page number
of an open file is no key of the pool; and whatever a careful call changes in a file on the disk is what
was put into that file. -/
theorem run_files_apart [DecidableEq α] (numPages : α → Nat) (poolSize : Nat) (calls : List (FileCall α))
    (hcare : Along (Server.step numPages) (Server.Careful numPages) (Server.start poolSize) calls)
    (hrun : run (Server.step numPages) (Server.start poolSize) calls = some s) :
    (∀ fd path, s.fd2path fd = some path → ∀ p, ∃ r m, s.pool.fetchPage ⟨fd, p⟩ = some (r, m) ∧
        ∀ f, r = .ok (some f) → (m.pages f).data = s.content path p) ∧
      (∀ fd path, s.fd2path fd = some path → s.pool.pageTable.lookup (s.pool.nextPageId fd) = none) ∧
      ∀ a s', Server.Careful numPages s a → Server.step numPages s a = some s' → Apart s s' := by
  obtain ⟨⟨place, left, h⟩, hun⟩ := run_invariant_along
    (I := fun s => (∃ place left, Served s place left) ∧ Unused s)
    (fun _ _ _ ⟨⟨place, left, h⟩, hun⟩ hP hs => by
      obtain ⟨⟨place', left', h', hun'⟩, -⟩ := h.step hun hP hs
      exact ⟨⟨place', left', h'⟩, hun'⟩) calls _ s
    ⟨⟨_, _, Served.start poolSize⟩, fun _ hc => absurd rfl hc⟩ hcare hrun
  refine ⟨?_, ?_, fun a s' hP hs => (h.step hun hP hs).2⟩
  · intro fd path hfd p
    rcases fetchPage_spec h.sim.good h.sim.owed ⟨fd, p⟩ with ⟨m, heq, -⟩ | ⟨f, m, place', heq, hgood, hf⟩ |
        ⟨f, m, heq, -⟩
    · exact ⟨.ok none, m, heq, fun f hf => (by cases hf)⟩
    · refine ⟨.ok (some f), m, heq, fun f' hf' => ?_⟩
      cases hf'
      have hres : place' f = .resident ⟨fd, p⟩ := by
        rw [hf.placed]
        exact Function.update_self ..
      exact (hgood.stored.data ⟨fd, p⟩ f hres).trans (h.opened path fd ((h.paths path fd).2 hfd) p)
    · exact ⟨.error readPageError, m, heq, fun f hf => (by cases hf)⟩
  · intro fd path hfd
    exact (h.next hun ((h.paths path fd).2 hfd)).1

end Steps

/-! ## Two runs -/

/-- An index is given a page and closed, and a table opened under its descriptor and given two pages,
the first of which leaves its frame for the second. -/
def afterIndex : List (FileCall Nat) :=
  [.createIndex "i" 4 3 0 0, .createTable "t" 1, .openIndex "i" 4, .newPage 0 4, .change 0 ⟨4, 3⟩ 7,
    .unpin 0 ⟨4, 3⟩ true, .closeIndex 4 [⟨4, 3⟩] 4, .openTable "t" 4, .newPage 1 4, .change 1 ⟨4, 1⟩ 9,
    .unpin 1 ⟨4, 1⟩ true, .newPage 2 4, .unpin 2 ⟨4, 2⟩ false]

theorem run_files_apart_after_index : ∃ s,
    run (Server.step id) (Server.start 1) afterIndex = some s ∧
      ∃ m, s.pool.fetchPage ⟨4, 1⟩ = some (.ok (some 0), m) ∧ (m.pages 0).data = s.content "t" 1 := by
  have hvals : (run (Server.step id) (Server.start 1) afterIndex).map
      (fun s => (s.fd2path 4, (s.pool.fetchPage ⟨4, 1⟩).map fun p => Clients.returned p.1)) =
        some (some "t", some (some 0)) := by
    decide +kernel
  obtain ⟨s, hrun, hs⟩ := Option.map_eq_some_iff.1 hvals
  obtain ⟨hfd, hfetch⟩ := Prod.mk.inj hs
  obtain ⟨hback, -⟩ := run_files_apart id 1 afterIndex (by decide +kernel) hrun
  obtain ⟨r, m, hrm, hdata⟩ := hback 4 "t" hfd 1
  rw [hrm] at hfetch
  obtain rfl : r = .ok (some 0) := by
    cases r with
    | ok f => rw [show f = some 0 from Option.some.inj hfetch]
    | error e => cases hfetch
  exact ⟨s, hrun, m, hrm, hdata 0 rfl⟩

/-- A table is given a page and closed, and another opened under its descriptor. -/
def afterTable : List (FileCall Nat) :=
  [.createTable "a" 1, .createTable "b" 1, .openTable "a" 3, .newPage 0 3, .change 0 ⟨3, 1⟩ 7, .unpin 0 ⟨3, 1⟩ true,
    .closeTable 3 [⟨3, 1⟩] 2, .openTable "b" 3]

theorem mixed_after_table : ¬ ∀ (numPages : Nat → Nat) (poolSize : Nat) (calls : List (FileCall Nat)) (s : Server Nat),
    run (Server.step numPages) (Server.start poolSize) calls = some s →
      (∀ fd path, s.fd2path fd = some path → ∀ p, ∃ r m, s.pool.fetchPage ⟨fd, p⟩ = some (r, m) ∧
        ∀ f, r = .ok (some f) → (m.pages f).data = s.content path p) ∧
      ∀ fd path, s.fd2path fd = some path → s.pool.pageTable.lookup (s.pool.nextPageId fd) = none := by
  intro hall
  have hvals : (run (Server.step id) (Server.start 4) afterTable).map
      (fun s => (s.fd2path 3, s.pool.pageTable.lookup (s.pool.nextPageId 3))) = some (some "b", some 1) := by
    decide +kernel
  obtain ⟨s, hrun, hs⟩ := Option.map_eq_some_iff.1 hvals
  obtain ⟨hfd, hl⟩ := Prod.mk.inj hs
  rw [(hall id 4 afterTable s hrun).2 3 "b" hfd] at hl
  cases hl

end Rmdb.Buffer
