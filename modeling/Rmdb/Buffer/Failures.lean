import Rmdb.Buffer.Refine

/-!
# Disk accesses that fail

`write_page` and `read_page` throw when fewer bytes than a page go through, and the page on the
disk or the data of the frame is then partly overwritten; a page that is cut short at the end of its
file, which `read_page` refuses, is a page with another content here.  `fetch_page` catches the exception,
gives the frame back to its free list and throws on (`fetchPageThrows`); `new_page` has no handler
(`newPageThrows`).  A failing call is a step of its own among the calls of the holders.

The handler of `fetch_page` throws away the page that was in the frame, also when that page was
dirty and did not get to the disk.  What survives such a call is in `Survives`, and when it does
in `run_survives_iff`.
-/

namespace Rmdb.Buffer

open Rmdb.Lib (run Along)

/-- The access that fails, and what it leaves in the page on the disk or in the frame. -/
inductive Fault (α : Type) where
  | write (onDisk : α)
  | read (inFrame : α)
deriving DecidableEq, Repr

namespace BufferPool

variable {α : Type} (m : BufferPool α)

/-- A `write_page` of the page that had the reserved frame throws. -/
def failWrite (r : Reserved) (c : α) : BufferPool α := m.writeBack r.oldPageId true c

/-- A `read_page` into the frame throws. -/
def failRead (f : FrameId) (c : α) : BufferPool α := m.setPage f { m.pages f with data := c }

/-- What a `fetch_page` leaves that throws because of the failure; `none` if it makes no such
access. -/
def fetchPageThrows (id : PageId) (fault : Fault α) : Option (BufferPool α) :=
  if m.pageIoInflight id then none
  else
    match m.pageTable.lookup id with
    | some _ => none
    | none =>
        let m := m.setPageIo id true
        match m.reserveVictim (shardOfPage id) with
        | none => none
        | some (r, m) =>
            match fault with
            | .write c => if r.needFlush then some ((m.failWrite r c).giveBack id r.frame) else none
            | .read c => some (((m.writeOld r).failRead r.frame c).giveBack id r.frame)

/-- What a `new_page` leaves whose write throws. -/
def newPageThrows (fd : Nat) (onDisk : α) : Option (BufferPool α) :=
  let id := m.nextPageId fd
  let m := m.allocatePage fd
  match m.reserveVictim (shardOfPage id) with
  | none => none
  | some (r, m) => if r.needFlush then some (m.failWrite r onDisk) else none

end BufferPool

/-- A call that fails. -/
inductive Failing (α : Type) where
  | fetch (id : PageId) (fault : Fault α)
  | newPage (fd : Nat) (onDisk : α)
deriving DecidableEq, Repr

variable {α : Type}

def Failing.throws (c : Failing α) (m : BufferPool α) : Option (BufferPool α) :=
  match c with
  | .fetch id fault => m.fetchPageThrows id fault
  | .newPage fd onDisk => m.newPageThrows fd onDisk

/-- A `fetch_page` whose read fails, or whose write fails with the whole page on the disk. -/
def Failing.Harmless (c : Failing α) (m : BufferPool α) : Prop :=
  match c with
  | .fetch _ (.read _) => True
  | .fetch id (.write c) =>
      ∀ r ∈ (m.setPageIo id true).reserveVictim (shardOfPage id), c = (m.pages r.1.frame).data
  | .newPage _ _ => False

/-- Each frame is in one place and nothing is under way, and every page that was unpinned and dirty
in `m` is there for a `fetch_page`. -/
def Survives (m m' : BufferPool α) : Prop :=
  Partitioned m' ∧ (∀ id, m'.pageIoInflight id = false) ∧ (∀ f, m'.frameIoInflight f = false) ∧
    ∀ id f, m.pageTable.lookup id = some f → (m.pages f).pinCount = 0 → (m.pages f).isDirty = true →
      ∃ g m2, m'.fetchPage id = some (.ok (some g), m2) ∧ (m2.pages g).data = (m.pages f).data

inductive Event (α : Type) where
  | call (c : Call α)
  | fails (c : Failing α)
deriving DecidableEq, Repr

def event [Zero α] (s : Clients α) : Event α → Option (Clients α)
  | .call c => step s c
  | .fails c => (c.throws s.pool).map fun m => { s with pool := m }

/-- Calls that keep to the rules and failures that do no harm. -/
def Fine [Zero α] [DecidableEq α] (s : Clients α) : Event α → Prop
  | .call c => Proper s c
  | .fails c => c.Harmless s.pool

instance Failing.Harmless.decidable [DecidableEq α] (c : Failing α) (m : BufferPool α) : Decidable (c.Harmless m) :=
  match c with
  | .fetch _ (.read _) => isTrue trivial
  | .fetch id (.write c) =>
      inferInstanceAs (Decidable (∀ r ∈ (m.setPageIo id true).reserveVictim (shardOfPage id),
        c = (m.pages r.1.frame).data))
  | .newPage _ _ => isFalse id

instance [Zero α] [DecidableEq α] (s : Clients α) (e : Event α) : Decidable (Fine s e) :=
  match e with
  | .call c => inferInstanceAs (Decidable (Proper s c))
  | .fails c => inferInstanceAs (Decidable (c.Harmless s.pool))

variable {m m' m1 : BufferPool α} {place place' : FrameId → Place} {ok : PageId → α → Prop}
  {kept : PageId → Prop} {owed : FrameId → Prop} {id : PageId} {f : FrameId} {r : Reserved}

/-! ## The handler of fetch_page -/

/-- The access that failed, and what it left of the pool. -/
theorem fetchPageThrows_cases {fault : Fault α} (hthrow : m.fetchPageThrows id fault = some m') :
    ∃ r m1 m2, (m.setPageIo id true).reserveVictim (shardOfPage id) = some (r, m1) ∧
      m' = m2.giveBack id r.frame ∧
      ((∃ c, fault = .write c ∧ r.needFlush = true ∧ m2 = m1.failWrite r c) ∨
        ∃ c, fault = .read c ∧ m2 = (m1.writeOld r).failRead r.frame c) := by
  unfold BufferPool.fetchPageThrows at hthrow
  split at hthrow
  · cases hthrow
  · split at hthrow
    · cases hthrow
    · simp only at hthrow
      split at hthrow
      · cases hthrow
      · next r m1 hr =>
          cases fault with
          | write c =>
              obtain ⟨hflush, hthrow⟩ := Option.ite_none_right_eq_some.1 hthrow
              cases hthrow
              exact ⟨r, m1, _, hr, rfl, .inl ⟨c, rfl, hflush, rfl⟩⟩
          | read c =>
              cases hthrow
              exact ⟨r, m1, _, hr, rfl, .inr ⟨c, rfl, rfl⟩⟩

theorem failWrite_fields (m : BufferPool α) (r : Reserved) (c : α) : (m.failWrite r c).pages = m.pages ∧
    (m.failWrite r c).poolSize = m.poolSize ∧ (m.failWrite r c).pageTable = m.pageTable ∧
    (m.failWrite r c).replacer = m.replacer ∧ (m.failWrite r c).freeFrames = m.freeFrames ∧
    (m.failWrite r c).pageIoInflight = m.pageIoInflight ∧ (m.failWrite r c).frameIoInflight = m.frameIoInflight := by
  unfold BufferPool.failWrite BufferPool.writeBack
  split
  · rw [if_pos rfl]
    exact ⟨rfl, rfl, rfl, rfl, rfl, rfl, rfl⟩
  · exact ⟨rfl, rfl, rfl, rfl, rfl, rfl, rfl⟩

/-- The handler does its work whatever failed. -/
theorem Settled.givenBack (h : Settled m place) {m2 : BufferPool α} {c : α}
    (hr : (m.setPageIo id true).reserveVictim (shardOfPage id) = some (r, m1))
    (hm2 : m2 = m1.failWrite r c ∨ m2 = (m1.writeOld r).failRead r.frame c) :
    GivenBack m place r.frame (m2.giveBack id r.frame) := by
  have hwf : Wf (m.setPageIo id true) place := h.wf.congr rfl rfl rfl rfl rfl
  rcases hm2 with rfl | rfl
  · obtain ⟨hp, hs, ht, hl, hf, hpio, hfio⟩ := failWrite_fields m1 r c
    exact .of_taken h (hwf.reserveVictim hr) hs ht hl hf hpio hfio fun g _ => by rw [hp]
  · obtain ⟨hp, hs, ht, hl, hf, hpio, hfio, -⟩ := writeOld_fields (m := m1) (r := r)
    refine .of_taken h (hwf.reserveVictim hr) hs ht hl hf hpio hfio fun g hg => ?_
    show Function.update (m1.writeOld r).pages r.frame _ g = _
    rw [Function.update_of_ne hg, hp]

/-- A failure that does no harm leaves contents that will do. -/
theorem Good.fetchPageThrows (h : Good m place ok kept owed) (howed : ∀ g, owed g → 0 < (m.pages g).pinCount)
    {fault : Fault α} (hthrow : m.fetchPageThrows id fault = some m')
    (hharm : (Failing.fetch id fault).Harmless m) :
    ∃ f, GivenBack m place f m' ∧ Good m' (Function.update place f .free) ok kept owed := by
  obtain ⟨r, m1, m2, hr, rfl, hacc⟩ := fetchPageThrows_cases hthrow
  have hwf : Wf (m.setPageIo id true) place := h.settled.wf.congr rfl rfl rfl rfl rfl
  have ht := hwf.reserveVictim hr
  have hmarked : Stored (m.setPageIo id true) place ok kept owed fun _ => False := h.stored.congr rfl rfl rfl
  have hwritten := hmarked.takenWritten ht howed
  have hno : ∀ id', Function.update place r.frame .reserved r.frame ≠ .resident id' := by
    intro id' hc
    rw [Function.update_self] at hc
    cases hc
  rcases hacc with ⟨c, rfl, hflush, rfl⟩ | ⟨c, rfl, rfl⟩
  · -- the whole page got to the disk
    have hc : c = (m1.pages r.frame).data := by
      rw [ht.pages, Function.update_self]
      exact hharm _ hr
    have heq : m1.failWrite r c = m1.writeOld r := by
      unfold BufferPool.failWrite BufferPool.writeOld
      rw [hc, hflush]
    have hback := h.settled.givenBack hr (.inl rfl : m1.failWrite r c = _ ∨ _)
    refine ⟨r.frame, hback, hback.settled, ?_⟩
    rw [heq]
    exact hwritten.giveBack
  · have hback := h.settled.givenBack hr (.inr rfl : (m1.writeOld r).failRead r.frame c = _ ∨ _)
    exact ⟨r.frame, hback, hback.settled, (hwritten.setTaken hno _).giveBack⟩

/-! ## What is there afterwards -/

/-- The contents that were left in the frames and not yet written. -/
def Unwritten (m : BufferPool α) (place : FrameId → Place) (id : PageId) (c : α) : Prop :=
  ∀ f, place f = .resident id → (m.pages f).pinCount = 0 → (m.pages f).isDirty = true → c = (m.pages f).data

/-- A dirty page. -/
def Waits (m : BufferPool α) (place : FrameId → Place) (id : PageId) : Prop :=
  ∃ f, place f = .resident id ∧ (m.pages f).isDirty = true

theorem Settled.unwritten (h : Settled m place) :
    Good m place (Unwritten m place) (Waits m place) fun _ => False := by
  refine ⟨h, ?_, ?_, ?_⟩
  · intro id f hf g hg _ _
    rw [h.wf.resident_inj hf hg]
  · intro id f hf hclean
    left
    constructor
    · intro g hg _ hd
      rw [← h.wf.resident_inj hf hg, hclean] at hd
      cases hd
    · rintro ⟨g, hg, hd⟩
      rw [← h.wf.resident_inj hf hg, hclean] at hd
      cases hd
  · intro id hid
    left
    exact ⟨fun f hf => absurd hf (hid f), fun ⟨f, hf, _⟩ => absurd hf (hid f)⟩

/-- A page that is in no frame is what the disk has. -/
theorem Settled.onDisk (h : Settled m place) (hid : ∀ f, place f ≠ .resident id) :
    Good m place (fun id' c => id' = id → c = m.disk id) (fun id' => id' = id ∧ m.InFile id) fun _ => False := by
  refine ⟨h, ?_, ?_, ?_⟩
  · rintro id' f hf rfl
    exact absurd hf (hid f)
  · rintro id' f hf -
    have hne : id' ≠ id := by
      rintro rfl
      exact hid f hf
    exact .inl ⟨fun hc => absurd hc hne, fun hc => absurd hc.1 hne⟩
  · intro id' _
    left
    constructor
    · rintro rfl
      rfl
    · rintro ⟨rfl, hin⟩
      exact hin

/-- While a frame is free, a page that is kept is fetched with a content that will do. -/
theorem Good.fetch (h : Good m place ok kept fun _ => False) (hf : place f = .free) (id : PageId) (hk : kept id) :
    ∃ g m', m.fetchPage id = some (.ok (some g), m') ∧ ok id (m'.pages g).data := by
  rcases fetchPage_spec h (fun _ ho => ho.elim) id with ⟨m', -, -, -, hpinned⟩ |
      ⟨g, m', place', heq, hgood, hfetched⟩ | ⟨g, m', -, -, -, -, -, hnot⟩
  · obtain ⟨id', hid', -⟩ := hpinned f ((h.settled.wf.size f).2 (by rw [hf]; exact fun hc => (by cases hc)))
    rw [hf] at hid'
    cases hid'
  · refine ⟨g, m', heq, hgood.stored.data id g ?_⟩
    rw [hfetched.placed]
    exact Function.update_self ..
  · exact absurd hk hnot

/-- All survives a failure that does no harm. -/
theorem Settled.survives (h : Settled m place) {fault : Fault α} (hthrow : m.fetchPageThrows id fault = some m')
    (hharm : (Failing.fetch id fault).Harmless m) : Survives m m' := by
  obtain ⟨f, hback, hgood⟩ := h.unwritten.fetchPageThrows (fun _ ho => ho.elim) hthrow hharm
  refine ⟨hback.settled.partitioned, hback.settled.pageIo, hback.settled.frameIo, ?_⟩
  intro id' f' hl hpin hdirty
  have hf' := (h.wf.table id' f').1 hl
  obtain ⟨g, m2, heq, hdata⟩ := hgood.fetch (Function.update_self ..) id' ⟨f', hf', hdirty⟩
  exact ⟨g, m2, heq, hdata f' hf' hpin hdirty⟩

/-- A page whose write fails is gone, whatever else the disk has of it. -/
theorem Settled.lost (h : Settled m place) {c : α} (hthrow : m.fetchPageThrows id (.write c) = some m')
    (hharm : ¬ (Failing.fetch id (.write c)).Harmless m) : ¬ Survives m m' := by
  rintro ⟨-, -, -, hcontents⟩
  obtain ⟨r, m1, m2, hr, rfl, ⟨c', hc', hflush, rfl⟩ | ⟨c', hc', -⟩⟩ := fetchPageThrows_cases hthrow
  · obtain rfl : c = c' := Fault.write.inj hc'
    have hwf : Wf (m.setPageIo id true) place := h.wf.congr rfl rfl rfl rfl rfl
    have ht := hwf.reserveVictim hr
    obtain ⟨-, -, hnone⟩ | ⟨old, hf, hpin, hold, hdirty⟩ := ht.was
    · rw [hnone] at hflush
      cases hflush
    · have hback := h.givenBack hr (.inl rfl : m1.failWrite r c = _ ∨ _)
      have hgone : ∀ g, Function.update place r.frame .free g ≠ .resident old := by
        intro g hg
        by_cases hgf : g = r.frame
        · rw [hgf, Function.update_self] at hg
          cases hg
        · rw [Function.update_of_ne hgf] at hg
          exact hgf (h.wf.resident_inj hg hf)
      have hdisk : ((m1.failWrite r c).giveBack id r.frame).disk old = c := by
        show (m1.failWrite r c).disk old = c
        unfold BufferPool.failWrite
        rw [hold, writeBack_some]
        exact Function.update_self ..
      have hin : ((m1.failWrite r c).giveBack id r.frame).InFile old := by
        show (m1.failWrite r c).InFile old
        unfold BufferPool.failWrite
        rw [hold]
        exact (inFile_writePage m1 old c).1
      obtain ⟨g, m2, heq, hdata⟩ := (hback.settled.onDisk hgone).fetch (Function.update_self ..) _ ⟨rfl, hin⟩
      obtain ⟨g', m2', heq', hdata'⟩ := hcontents old r.frame ((h.wf.table old r.frame).2 hf) hpin
        (hdirty.symm.trans hflush)
      rw [heq] at heq'
      obtain ⟨hg, rfl⟩ := Prod.mk.inj (Option.some.inj heq')
      cases hg
      rw [hdata rfl, hdisk] at hdata'
      refine hharm ?_
      show ∀ r' ∈ (m.setPageIo id true).reserveVictim (shardOfPage id), c = (m.pages r'.1.frame).data
      rw [hr]
      rintro _ ⟨⟩
      exact hdata'
  · cases hc'

/-- `new_page` leaves the frame it had reserved. -/
theorem newPageThrows_marked (h : Settled m place) {fd : Nat} {c : α} (hthrow : m.newPageThrows fd c = some m') :
    ∃ f, m'.frameIoInflight f = true := by
  unfold BufferPool.newPageThrows at hthrow
  simp only at hthrow
  split at hthrow
  · cases hthrow
  · next r m1 hr =>
      obtain ⟨-, hthrow⟩ := Option.ite_none_right_eq_some.1 hthrow
      cases hthrow
      have hwf : Wf (m.allocatePage fd) place := h.wf.congr rfl rfl rfl rfl rfl
      refine ⟨r.frame, ?_⟩
      rw [(failWrite_fields m1 r c).2.2.2.2.2.2, (hwf.reserveVictim hr).frameIo]
      exact Function.update_self ..

/-- What a failing call leaves, when no other call is under way. -/
theorem Settled.survives_iff (h : Settled m place) {c : Failing α} (hthrow : c.throws m = some m') :
    Survives m m' ↔ c.Harmless m := by
  cases c with
  | fetch id fault =>
      refine ⟨fun hsurvives => ?_, h.survives hthrow⟩
      cases fault with
      | read c => trivial
      | write c =>
          by_contra hharm
          exact h.lost hthrow hharm hsurvives
  | newPage fd c =>
      refine ⟨fun hsurvives => ?_, fun hc => hc.elim⟩
      obtain ⟨f, hf⟩ := newPageThrows_marked h hthrow
      rw [hsurvives.2.2.1 f] at hf
      cases hf

/-! ## Runs -/

variable [Zero α] [DecidableEq α] {s s' : Clients α} {left : PageId → α}

omit [Zero α] [DecidableEq α] in
/-- The holders keep what they hold over a failure that does no harm. -/
theorem Sim.fails (h : Sim s place left kept) {c : Failing α} (hharm : c.Harmless s.pool)
    (hthrow : c.throws s.pool = some m') : ∃ place', Sim { s with pool := m' } place' left kept := by
  cases c with
  | newPage fd c => exact hharm.elim
  | fetch id fault =>
      obtain ⟨f, hback, hgood⟩ := h.good.fetchPageThrows h.owed hthrow hharm
      exact ⟨_, (h.givenBack hgood hback).1⟩

theorem Sim.event {e : Event α} (h : Sim s place left kept) (hfine : Fine s e) (hevent : event s e = some s') :
    ∃ place' left' kept', Sim s' place' left' kept' := by
  cases e with
  | call c =>
      obtain ⟨place', h', -⟩ := h.step hfine hevent
      exact ⟨place', _, _, h'⟩
  | fails c =>
      obtain ⟨m1, hthrow, rfl⟩ := Option.map_eq_some_iff.1 hevent
      obtain ⟨place', h'⟩ := h.fails hfine hthrow
      exact ⟨place', left, kept, h'⟩

theorem run_settled {poolSize : Nat} {disk : PageId → α} {len no : Nat → Nat} {events : List (Event α)}
    (hfine : Along event Fine (Clients.start poolSize disk len no) events)
    (hrun : run event (Clients.start poolSize disk len no) events = some s) : ∃ place, Settled s.pool place := by
  obtain ⟨place, left, kept, h⟩ := Lib.run_invariant_along (I := fun s => ∃ place left kept, Sim s place left kept)
    (fun s e s' h hf he => by
      obtain ⟨place, left, kept, h⟩ := h
      exact h.event hf he)
    events _ s ⟨_, _, _, Sim.start poolSize disk len no⟩ hfine hrun
  exact ⟨place, h.good.settled⟩

/-- In every run of calls that keep to the rules and of failures that did no harm: a call that
fails leaves the frames in their places and the unwritten pages there exactly when it is a
`fetch_page` whose read fails, or whose write fails with the whole page on the disk. -/
theorem run_survives_iff (poolSize : Nat) (disk : PageId → α) (len no : Nat → Nat) (events : List (Event α))
    (hfine : Along event Fine (Clients.start poolSize disk len no) events)
    (hrun : run event (Clients.start poolSize disk len no) events = some s) (c : Failing α)
    (hthrow : c.throws s.pool = some m') : Survives s.pool m' ↔ c.Harmless s.pool := by
  obtain ⟨place, h⟩ := run_settled hfine hrun
  exact h.survives_iff hthrow

/-- In a pool of one frame, a page is made, changed and given back, and a read fails. -/
def afterRead : List (Event Nat) :=
  [.call (.newPage 0 3), .call (.change 0 ⟨3, 0⟩ 7), .call (.unpin 0 ⟨3, 0⟩ true), .fails (.fetch ⟨3, 5⟩ (.read 9)),
    .call (.fetch 1 ⟨3, 0⟩), .call (.change 1 ⟨3, 0⟩ 8), .call (.unpin 1 ⟨3, 0⟩ true)]

theorem run_survives_iff_read : ∃ s m, run event (Clients.start 1 (fun _ => 0) (fun _ => 6) fun _ => 0) afterRead = some s ∧
    (Failing.fetch ⟨3, 5⟩ (.read 9)).throws s.pool = some m ∧ Survives s.pool m := by
  have hvals : ((run event (Clients.start 1 (fun _ => 0) (fun _ => 6) fun _ => 0) afterRead).bind fun s =>
      (Failing.fetch ⟨3, 5⟩ (.read 9)).throws s.pool).isSome = true := by
    decide +kernel
  obtain ⟨m, hm⟩ := Option.isSome_iff_exists.1 hvals
  obtain ⟨s, hrun, hthrow⟩ := Option.bind_eq_some_iff.1 hm
  exact ⟨s, m, hrun, hthrow,
    (run_survives_iff 1 (fun _ => 0) (fun _ => 6) (fun _ => 0) afterRead (by decide +kernel) hrun _ hthrow).2 trivial⟩

/-- In a pool of one frame, a page is made, changed and given back. -/
def givenBack : List (Event Nat) :=
  [.call (.newPage 0 3), .call (.change 0 ⟨3, 0⟩ 7), .call (.unpin 0 ⟨3, 0⟩ true)]

/-- The write of a page that has to leave its frame fails, and the page is as it was on the disk. -/
theorem not_survives_write : ∃ s m, Along event Fine (Clients.start 1 (fun _ => 0) (fun _ => 6) fun _ => 0) givenBack ∧
    run event (Clients.start 1 (fun _ => 0) (fun _ => 6) fun _ => 0) givenBack = some s ∧
    (Failing.fetch ⟨3, 5⟩ (.write 0)).throws s.pool = some m ∧
    (s.pool.pages 0).data = 7 ∧ (m.fetchPage ⟨3, 0⟩).map (fun p => (p.2.pages 0).data) = some 0 ∧
    ¬ Survives s.pool m := by
  have hfine : Along event Fine (Clients.start 1 (fun _ => 0) (fun _ => 6) fun _ => 0) givenBack := by decide +kernel
  have hvals : ((run event (Clients.start 1 (fun _ => 0) (fun _ => 6) fun _ => 0) givenBack).bind fun s =>
      ((Failing.fetch ⟨3, 5⟩ (.write 0)).throws s.pool).map fun m =>
        ((s.pool.pages 0).data, (m.fetchPage ⟨3, 0⟩).map fun p => (p.2.pages 0).data,
          decide ((Failing.fetch ⟨3, 5⟩ (.write 0)).Harmless s.pool))) = some (7, some 0, false) := by
    decide +kernel
  obtain ⟨s, hrun, hs⟩ := Option.bind_eq_some_iff.1 hvals
  obtain ⟨m, hthrow, hm⟩ := Option.map_eq_some_iff.1 hs
  obtain ⟨hdata, hm⟩ := Prod.mk.inj hm
  obtain ⟨hfetch, hharm⟩ := Prod.mk.inj hm
  obtain ⟨place, hset⟩ := run_settled hfine hrun
  exact ⟨s, m, hfine, hrun, hthrow, hdata, hfetch,
    fun hc => of_decide_eq_false hharm ((hset.survives_iff hthrow).1 hc)⟩

end Rmdb.Buffer
