import Rmdb.Buffer.Stale

/-!
# The page cleaner

`cleaner_loop` beside the threads: it copies a dirty page that no one has pinned, writes the
copy and then takes the mark from the frame if the page is still there, unpinned and dirty.
In the runs in which a page that was changed since the copy is neither cleaned nor written
by a thread before the copy is (`Cleaning.Careful`), a clean unpinned page is the page on the
disk and no newer page is written over (`run_clean`).  How many pages are cleaned in a round, and
how few free frames start one, is left out.
-/

namespace Rmdb.Buffer

open Rmdb.Lib (run Along run_invariant_along)

/-- Where the cleaner stands, with the frame `target`, the page id `pid` and the copy. -/
inductive Cleaner (α : Type) where
  | looking
  /-- before `write_page` -/
  | copied (target : FrameId) (pid : Option PageId) (copy : Image α)
  /-- before the second section under the latch -/
  | written (target : FrameId) (pid : Option PageId) (copy : Image α)
deriving DecidableEq

structure Cleaning (α : Type) where
  threads : Threads α
  cleaner : Cleaner α

inductive CleanStep (α : Type) where
  | thread (t : Nat) (act : Act α)
  /-- the entry of page `key` is the one the cleaner takes -/
  | copy (key : PageId)
  | write
  | clear
deriving DecidableEq

namespace Cleaning

variable {α : Type} (s : Cleaning α)

def pool : BufferPool (Image α) := s.threads.pool

/-- The section that takes the mark away. -/
def clearMark (m : BufferPool α) (target : FrameId) (pid : Option PageId) : BufferPool α :=
  if (m.pages target).pinCount = 0 ∧ (m.pages target).id = pid ∧ (m.pages target).isDirty = true then
    m.setPage target { m.pages target with isDirty := false }
  else m

/-- The first section under the latch, if it takes the entry of page `key`. -/
def copy (key : PageId) : Option (Cleaning α) :=
  match s.cleaner, s.pool.pageTable.lookup key with
  | .looking, some f =>
      if (s.pool.pages f).pinCount = 0 ∧ (s.pool.pages f).isDirty = true ∧ s.pool.frameIoInflight f = false then
        some { s with cleaner := .copied f (s.pool.pages f).id (s.pool.pages f).data }
      else none
  | _, _ => none

def write : Option (Cleaning α) :=
  match s.cleaner with
  | .copied f pid c => some ⟨s.threads.withPool (s.pool.writeBack pid true c), .written f pid c⟩
  | _ => none

def clear : Option (Cleaning α) :=
  match s.cleaner with
  | .written f pid _ => some ⟨s.threads.withPool (clearMark s.pool f pid), .looking⟩
  | _ => none

def step [Zero α] (s : Cleaning α) : CleanStep α → Option (Cleaning α)
  | .thread t act => (s.threads.step (t, act)).map fun th => { s with threads := th }
  | .copy key => s.copy key
  | .write => s.write
  | .clear => s.clear

def start [Zero α] (nthreads poolSize : Nat) (disk : PageId → α) (len no : Nat → Nat) : Cleaning α :=
  ⟨Threads.start nthreads poolSize disk len no, .looking⟩

/-- The page whose copy the cleaner has yet to write, and the copy. -/
def toWrite : Option (PageId × Image α) :=
  match s.cleaner with
  | .copied _ pid c => pid.map (·, c)
  | _ => none

/-- The page that the cleaner is about to mark clean, and the copy of it that it wrote. -/
def toClear : Option (PageId × Image α) :=
  match s.cleaner with
  | .written f pid c =>
      if (s.pool.pages f).pinCount = 0 ∧ (s.pool.pages f).id = pid ∧ (s.pool.pages f).isDirty = true then
        pid.map (·, c)
      else none
  | _ => none

/-- The page was not changed since `c` was copied from it. -/
def Unchanged (x : PageId × Image α) : Prop := s.threads.left x.1 = x.2

instance [DecidableEq α] (x : PageId × Image α) : Decidable (s.Unchanged x) :=
  inferInstanceAs (Decidable (_ = _))

/-- What the step of a thread must not do: besides reading a page that another one has to write and
making one that is not new, give a page back clean that it has changed, and write a page that
was changed since the cleaner copied it, if the cleaner has yet to write. -/
def CarefulThread [Zero α] (t : Nat) : Act α → Prop
  | .next =>
      Careful s.threads (t, .next) ∧ (∀ id ∈ (s.threads.pc t).makes, s.threads.left id = 0) ∧
        ∀ id ∈ (s.threads.pc t).writes, ∀ x ∈ s.toWrite, x.1 = id → s.Unchanged x
  | .unpin id d =>
      ∀ k ∈ s.threads.find t id, k.changed = true → d = true ∨ (s.pool.pages k.frame).isDirty = true
  | _ => True

/-- Nor must the cleaner mark a page clean that was changed since it copied it. -/
def Careful [Zero α] (s : Cleaning α) : CleanStep α → Prop
  | .thread t act => s.CarefulThread t act
  | .clear => ∀ x ∈ s.toClear, s.Unchanged x
  | _ => True

instance [Zero α] [DecidableEq α] (t : Nat) (act : Act α) : Decidable (s.CarefulThread t act) :=
  match act with
  | .next => inferInstanceAs (Decidable (_ ∧ _ ∧ _))
  | .unpin _ _ => inferInstanceAs (Decidable (∀ k ∈ s.threads.find t _, _ → _))
  | .fetch _ | .newPage _ | .change _ _ => inferInstanceAs (Decidable True)

instance [Zero α] [DecidableEq α] (a : CleanStep α) : Decidable (Careful s a) :=
  match a with
  | .thread t act => inferInstanceAs (Decidable (s.CarefulThread t act))
  | .clear => inferInstanceAs (Decidable (∀ x ∈ s.toClear, s.Unchanged x))
  | .copy _ | .write => inferInstanceAs (Decidable True)

end Cleaning

/-! ## What the steps do to the disk -/

variable {α : Type}

/-- A step of a call writes to the disk only what the thread has to write. -/
theorem Threads.next_disk [Zero α] {s s' : Threads α} {t : Nat} {place : FrameId → Place} (hwf : Wf s.pool place)
    (hstep : s.next t = some s') (id : PageId) :
    s'.pool.disk id = s.pool.disk id ∨
      (s.pc t).writes = some id ∧ ∃ f, (s.pc t).frame = some f ∧ s'.pool.disk id = (s.pool.pages f).data := by
  cases Threads.next_contents hwf hstep with
  | same hpages hdisk => exact .inl (congrFun hdisk id)
  | brought hcontent hpages hdisk => exact .inl (congrFun hdisk id)
  | @written r hframe hwrites hpool =>
      rw [hpool]
      by_cases hid : r.writes id
      · right
        obtain ⟨hold, hflush⟩ := hid
        refine ⟨by rw [hwrites, if_pos hflush, hold], r.frame, hframe, ?_⟩
        unfold BufferPool.writeOld BufferPool.writeBack
        rw [hold, hflush]
        exact Function.update_self ..
      · exact .inl (writeOld_disk hid)

/-! ## Clean pages -/

/-- A frame whose holder has written into it and not given it back. -/
def owesChange (pins : List Pin) (f : FrameId) : Prop := ∃ k ∈ pins, k.frame = f ∧ k.changed = true

theorem owesChange_ok : OwedOk owesChange where
  mono := fun _ _ _ ⟨k, hk, hf⟩ => ⟨k, List.mem_cons_of_mem _ hk, hf⟩
  held := fun _ _ ⟨k, hk, hf, _⟩ => ⟨k, hk, hf⟩

/-- The content is the one left in the page. -/
def Latest (s : Threads α) (id : PageId) (c : Image α) : Prop := c = s.left id

/-- The content was left in the page. -/
def WasLeft (s : Threads α) (id : PageId) (c : Image α) : Prop := Latest s id c ∨ c.stamp < (s.left id).stamp

structure Tidy (s : Cleaning α) (place : FrameId → Place) : Prop where
  sound : Sound s.threads place (Latest s.threads) (owesChange s.threads.pins)
  clock : ∀ id, (s.threads.left id).stamp ≤ s.threads.clock
  unpinned : ∀ id, s.threads.unpinned id ≤ (s.threads.left id).stamp
  disk : ∀ id, (s.pool.disk id).stamp ≤ (s.threads.left id).stamp
  copied : ∀ f id c, s.cleaner = .copied f (some id) c →
    WasLeft s.threads id c ∧ (s.pool.disk id).stamp ≤ c.stamp
  written : ∀ f id c, s.cleaner = .written f (some id) c →
    WasLeft s.threads id c ∧ (s.pool.disk id = c ∨ c.stamp < (s.threads.left id).stamp)

variable {s s' : Cleaning α} {place place' : FrameId → Place}

theorem WasLeft.latest {s : Threads α} {id : PageId} {c : Image α} (h : WasLeft s id c)
    (hle : (s.left id).stamp ≤ c.stamp) : Latest s id c := by
  rcases h with h | h
  · exact h
  · omega

/-- A step that leaves the pages as they were and writes to the disk at most the latest contents. -/
theorem Tidy.of_left (h : Tidy s place) {th : Threads α}
    (hsound : Sound th place' (Latest th) (owesChange th.pins)) (hleft : th.left = s.threads.left)
    (hclock : th.clock = s.threads.clock) (hun : ∀ id, th.unpinned id ≤ (th.left id).stamp)
    (hdisk : ∀ id, th.pool.disk id = s.pool.disk id ∨
      th.pool.disk id = th.left id ∧ ∀ x ∈ s.toWrite, x.1 = id → s.Unchanged x) :
    Tidy { s with threads := th } place' := by
  refine ⟨hsound, ?_, hun, ?_, ?_, ?_⟩
  · intro id
    show (th.left id).stamp ≤ th.clock
    rw [hleft, hclock]
    exact h.clock id
  · intro id
    show (th.pool.disk id).stamp ≤ (th.left id).stamp
    rcases hdisk id with hd | ⟨hd, -⟩
    · rw [hd, hleft]
      exact h.disk id
    · rw [hd]
  · intro f id c hc
    obtain ⟨hwas, hle⟩ := h.copied f id c hc
    refine ⟨?_, ?_⟩
    · show c = th.left id ∨ _
      rw [hleft]
      exact hwas
    · show (th.pool.disk id).stamp ≤ c.stamp
      rcases hdisk id with hd | ⟨hd, hunch⟩
      · rw [hd]
        exact hle
      · have hx : (id, c) ∈ s.toWrite := by
          unfold Cleaning.toWrite
          rw [show s.cleaner = _ from hc]
          rfl
        have hsame : s.threads.left id = c := hunch (id, c) hx rfl
        rw [hd, hleft, hsame]
  · intro f id c hc
    obtain ⟨hwas, hle⟩ := h.written f id c hc
    refine ⟨?_, ?_⟩
    · show c = th.left id ∨ _
      rw [hleft]
      exact hwas
    · show th.pool.disk id = c ∨ c.stamp < (th.left id).stamp
      rcases hdisk id with hd | ⟨hd, -⟩
      · rw [hd, hleft]
        exact hle
      · rw [hd, hleft]
        rcases hwas with hwas | hwas
        · exact .inl hwas.symm
        · exact .inr hwas

/-- A holder writes into its frame. -/
theorem Tidy.change (h : Tidy s place) {t : Nat} (hlt : t < s.threads.nthreads)
    (hout : (s.threads.pc t).outside = true) {k : Pin} {id : PageId} (hfind : s.threads.find t id = some k) (c : α) :
    Tidy { s with threads := s.threads.changeAt t k c } place := by
  obtain ⟨hk, hkt, rfl⟩ := Threads.find_spec hfind
  have hkp := h.sound.held k hk
  have hst := h.sound.stored
  have hself : (s.threads.changeAt t k c).left k.id = ⟨c, s.threads.clock + 1⟩ := Function.update_self ..
  have hother : ∀ id, id ≠ k.id → (s.threads.changeAt t k c).left id = s.threads.left id := fun id hid =>
    Function.update_of_ne hid ..
  have hid : ∀ id, (∀ f, place f ≠ .resident id) → id ≠ k.id := by
    rintro id hf rfl
    exact hf k.frame hkp
  have howes : ∀ g, owesChange s.threads.pins g → owesChange (s.threads.changeAt t k c).pins g := by
    rintro g ⟨k1, hk1, hg, hch⟩
    refine ⟨_, List.mem_map.2 ⟨k1, hk1, rfl⟩, ?_⟩
    split
    · exact ⟨hg, rfl⟩
    · exact ⟨hg, hch⟩
  have hstored : Stored (s.threads.changeAt t k c).pool place (Latest (s.threads.changeAt t k c)) (fun _ => False)
      (owesChange (s.threads.changeAt t k c).pins) s.threads.Pending := by
    refine ⟨?_, ?_, ?_⟩
    · intro id g hg
      show (Function.update s.threads.pool.pages k.frame _ g).data = (s.threads.changeAt t k c).left id
      by_cases hgk : g = k.frame
      · subst hgk
        obtain rfl : k.id = id := Place.resident.inj (hkp.symm.trans hg)
        rw [Function.update_self, hself]
      · rw [Function.update_of_ne hgk, hother id fun hc => hgk (h.sound.wf.resident_inj hg (hc ▸ hkp))]
        exact hst.data id g hg
    · intro id g hg
      by_cases hgk : g = k.frame
      · subst hgk
        refine fun _ => .inr ⟨_, List.mem_map.2 ⟨k, hk, rfl⟩, ?_⟩
        rw [if_pos ⟨hkt, rfl⟩]
        exact ⟨rfl, rfl⟩
      · show (Function.update s.threads.pool.pages k.frame _ g).isDirty = false → _
        rw [Function.update_of_ne hgk]
        have hne : id ≠ k.id := fun hc => hgk (h.sound.wf.resident_inj hg (hc ▸ hkp))
        exact fun hclean => (hst.clean id g hg hclean).imp (fun ho => ho.of_disk fun hd => hd.trans (hother id hne).symm)
          (howes g)
    · intro id hf
      exact (hst.away id hf).imp_left fun ho => ho.of_disk fun hd => hd.trans (hother id (hid id hf)).symm
  have hgrows : ∀ id, (s.threads.left id).stamp ≤ ((s.threads.changeAt t k c).left id).stamp := by
    intro id
    by_cases hc : id = k.id
    · subst hc
      rw [hself]
      exact Nat.le_succ_of_le (h.clock k.id)
    · rw [hother id hc]
  have hwas : ∀ id x, WasLeft s.threads id x → WasLeft (s.threads.changeAt t k c) id x := by
    intro id x hx
    unfold WasLeft Latest at *
    by_cases hc : id = k.id
    · subst hc
      have hle := h.clock k.id
      right
      rw [hself]
      show x.stamp < s.threads.clock + 1
      rcases hx with rfl | hx
      · omega
      · omega
    · rw [hother id hc]
      exact hx
  refine ⟨?_, ?_, fun id => (h.unpinned id).trans (hgrows id), fun id => (h.disk id).trans (hgrows id), ?_, ?_⟩
  · refine h.sound.change hlt hout hk c hstored ?_
    intro id x hf hx
    show x = (s.threads.changeAt t k c).left id
    rw [hother id (hid id hf)]
    exact hx
  · intro id
    show ((s.threads.changeAt t k c).left id).stamp ≤ s.threads.clock + 1
    by_cases hc : id = k.id
    · subst hc
      rw [hself]
    · rw [hother id hc]
      exact Nat.le_succ_of_le (h.clock id)
  · intro f id x hx
    obtain ⟨h1, h2⟩ := h.copied f id x hx
    exact ⟨hwas id x h1, h2⟩
  · intro f id x hx
    obtain ⟨h1, h2⟩ := h.written f id x hx
    exact ⟨hwas id x h1, h2.imp_right fun h2 => h2.trans_le (hgrows id)⟩

/-- A holder gives its page back, dirty if it has changed it. -/
theorem Tidy.unpin (h : Tidy s place) {t : Nat} (hlt : t < s.threads.nthreads)
    (hout : (s.threads.pc t).outside = true) {k : Pin} {id : PageId} (hfind : s.threads.find t id = some k) (d : Bool)
    (hgives : k.changed = true → d = true ∨ (s.pool.pages k.frame).isDirty = true) :
    Tidy { s with threads := (s.threads.unpinAt t k d).goto t .idle } place := by
  obtain ⟨hk, -, -⟩ := Threads.find_spec hfind
  have hkp := h.sound.held k hk
  have hst := h.sound.stored
  have hdata : (s.threads.pool.pages k.frame).data = s.threads.left k.id := hst.data k.id k.frame hkp
  obtain ⟨-, hpages, hdisk, -⟩ := unpinPage_resident h.sound.wf hkp d
  obtain ⟨as, bs, hsplit, herase⟩ := Threads.unpinAt_pins hfind d
  have howes : ∀ g, owesChange s.threads.pins g → ¬ (g = k.frame ∧ k.changed = true) →
      owesChange (s.threads.unpinAt t k d).pins g := by
    rintro g ⟨k1, hk1, hg, hch⟩ hnot
    refine ⟨k1, ?_, hg, hch⟩
    rw [herase]
    rw [hsplit] at hk1
    rcases List.mem_append.1 hk1 with hk1 | hk1
    · exact List.mem_append_left _ hk1
    · rcases List.mem_cons.1 hk1 with rfl | hk1
      · exact absurd ⟨hg.symm, hch⟩ hnot
      · exact List.mem_append_right _ hk1
  have hhas : ∀ id', Has s.threads.pool (Latest s.threads) (fun _ => False) id' →
      Has (s.threads.unpinAt t k d).pool (Latest s.threads) (fun _ => False) id' :=
    fun id' ho => ho.of_disk fun hd => (congrFun hdisk id').trans hd
  have hstored : Stored (s.threads.unpinAt t k d).pool place (Latest s.threads) (fun _ => False)
      (owesChange (s.threads.unpinAt t k d).pins) s.threads.Pending := by
    refine ⟨?_, ?_, ?_⟩
    · intro id' g hg
      show ((s.threads.pool.unpinPage k.id d).2.pages g).data = s.threads.left id'
      rw [hpages]
      by_cases hgk : g = k.frame
      · subst hgk
        rw [Function.update_self]
        exact hst.data id' k.frame hg
      · rw [Function.update_of_ne hgk]
        exact hst.data id' g hg
    · intro id' g hg
      show ((s.threads.pool.unpinPage k.id d).2.pages g).isDirty = false → _
      rw [hpages]
      by_cases hgk : g = k.frame
      · subst hgk
        rw [Function.update_self]
        intro hclean
        obtain ⟨hd1, rfl⟩ := Bool.or_eq_false_iff.1 hclean
        refine (hst.clean id' k.frame hg hd1).imp (hhas id') fun ho => howes k.frame ho ?_
        rintro ⟨-, hch⟩
        rcases hgives hch with hc | hc
        · cases hc
        · have hd1' : (s.pool.pages k.frame).isDirty = false := hd1
          rw [hd1'] at hc
          cases hc
      · rw [Function.update_of_ne hgk]
        exact fun hclean => (hst.clean id' g hg hclean).imp (hhas id') fun ho => howes g ho fun hc => hgk hc.1
    · intro id' hf
      exact (hst.away id' hf).imp_left (hhas id')
  refine h.of_left ?_ rfl rfl ?_ fun id' => .inl (congrFun hdisk id')
  · refine h.sound.unpin hlt hout hfind d hstored (fun _ => ?_) fun _ _ _ hc => hc
    rw [hdata]
    exact h.unpinned k.id
  · intro id'
    show (if d = true then Function.update s.threads.unpinned k.id (s.threads.pool.pages k.frame).data.stamp
      else s.threads.unpinned) id' ≤ (s.threads.left id').stamp
    split
    · by_cases hc : id' = k.id
      · subst hc
        rw [Function.update_self, hdata]
      · rw [Function.update_of_ne hc]
        exact h.unpinned id'
    · exact h.unpinned id'

/-! ## Runs -/

theorem Tidy.copy (h : Tidy s place) {key : PageId} {f : FrameId} (hf : s.pool.pageTable.lookup key = some f) :
    Tidy { s with cleaner := .copied f (s.pool.pages f).id (s.pool.pages f).data } place := by
  have hkey := (h.sound.wf.table key f).1 hf
  have hdata : (s.pool.pages f).data = s.threads.left key := h.sound.stored.data key f hkey
  refine ⟨h.sound, h.clock, h.unpinned, h.disk, ?_, fun _ _ _ hc => (by cases hc)⟩
  intro g id c hc
  obtain ⟨-, hid, rfl⟩ := Cleaner.copied.inj hc
  have hident : (s.pool.pages f).id = some key := h.sound.wf.ident key f hkey
  obtain rfl : key = id := Option.some.inj (hident.symm.trans hid)
  refine ⟨.inl hdata, ?_⟩
  rw [hdata]
  exact h.disk key

theorem Tidy.write (h : Tidy s place) {f : FrameId} {pid : Option PageId} {c : Image α}
    (hc : s.cleaner = .copied f pid c) :
    Tidy ⟨s.threads.withPool (s.pool.writeBack pid true c), .written f pid c⟩ place := by
  cases pid with
  | none =>
      exact ⟨h.sound, h.clock, h.unpinned, h.disk, fun _ _ _ hc => (by cases hc), fun _ _ _ hc => (by cases hc)⟩
  | some id =>
      obtain ⟨hwas, hle⟩ := h.copied f id c hc
      have hself : (s.pool.writePage id c).disk id = c := Function.update_self ..
      have hother : ∀ id', id' ≠ id → (s.pool.writePage id c).disk id' = s.pool.disk id' := fun id' hid =>
        Function.update_of_ne hid ..
      -- if the disk has the latest content, then it is the copy
      have hdisk : ∀ id', Latest s.threads id' (s.pool.disk id') →
          Latest s.threads id' ((s.pool.writePage id c).disk id') := by
        intro id' hd
        by_cases hid : id' = id
        · subst hid
          rw [hself]
          refine hwas.latest ?_
          rw [← show s.pool.disk id' = s.threads.left id' from hd]
          exact hle
        · rw [hother id' hid]
          exact hd
      have hsound := h.sound.background (m := s.pool.writePage id c) (h.sound.wf.congr rfl rfl rfl rfl rfl)
        (h.sound.stored.withDisk rfl fun id' ho => ho.of_disk (hdisk id')) (fun _ => rfl) (fun _ => rfl) rfl hdisk
      refine ⟨hsound, h.clock, h.unpinned, ?_, fun _ _ _ hc => (by cases hc), ?_⟩
      · intro id'
        show ((s.pool.writePage id c).disk id').stamp ≤ (s.threads.left id').stamp
        by_cases hid : id' = id
        · subst hid
          rw [hself]
          rcases hwas with hwas | hwas
          · rw [hwas]
          · omega
        · rw [hother id' hid]
          exact h.disk id'
      · rintro g id' c' ⟨⟩
        exact ⟨hwas, .inl hself⟩

theorem Tidy.clear (h : Tidy s place) {f : FrameId} {pid : Option PageId} {c : Image α}
    (hc : s.cleaner = .written f pid c) (hcare : ∀ x ∈ s.toClear, s.Unchanged x) :
    Tidy ⟨s.threads.withPool (Cleaning.clearMark s.pool f pid), .looking⟩ place := by
  have hst := h.sound.stored
  unfold Cleaning.clearMark
  split
  · next hclear =>
      have hstored : Stored (s.pool.setPage f { s.pool.pages f with isDirty := false }) place (Latest s.threads)
          (fun _ => False) (owesChange s.threads.pins) s.threads.Pending := by
        by_cases hres : ∃ id, place f = .resident id
        · obtain ⟨id, hf⟩ := hres
          have hident : (s.pool.pages f).id = some id := h.sound.wf.ident id f hf
          obtain rfl : pid = some id := hclear.2.1.symm.trans hident
          have hleft : s.threads.left id = c := by
            refine hcare (id, c) ?_
            unfold Cleaning.toClear
            rw [hc]
            show (id, c) ∈ (if _ then _ else none)
            rw [if_pos hclear]
            rfl
          refine hst.setResident hf (hst.data id f hf) fun _ => .inl ?_
          obtain ⟨-, hd | hlt⟩ := h.written f id c hc
          · exact ⟨hd.trans hleft.symm, fun hk => hk.elim⟩
          · rw [hleft] at hlt
            omega
        · exact hst.setTaken (fun id hf => hres ⟨id, hf⟩) _
      have hpage : ∀ g, ((s.pool.setPage f { s.pool.pages f with isDirty := false }).pages g).data =
            (s.pool.pages g).data ∧
          ((s.pool.setPage f { s.pool.pages f with isDirty := false }).pages g).pinCount =
            (s.pool.pages g).pinCount := by
        intro g
        show (Function.update s.pool.pages f _ g).data = _ ∧ (Function.update s.pool.pages f _ g).pinCount = _
        by_cases hg : g = f
        · subst hg
          rw [Function.update_self]
          exact ⟨rfl, rfl⟩
        · rw [Function.update_of_ne hg]
          exact ⟨rfl, rfl⟩
      exact ⟨h.sound.background (h.sound.wf.setPage rfl Iff.rfl) hstored (fun g => (hpage g).1) (fun g => (hpage g).2)
        rfl fun _ hd => hd, h.clock, h.unpinned, h.disk, fun _ _ _ hc => (by cases hc), fun _ _ _ hc => (by cases hc)⟩
  · exact ⟨h.sound, h.clock, h.unpinned, h.disk, fun _ _ _ hc => (by cases hc), fun _ _ _ hc => (by cases hc)⟩

theorem Tidy.thread [Zero α] (h : Tidy s place) {t : Nat} {act : Act α} (hcare : s.CarefulThread t act)
    {th : Threads α} (hstep : s.threads.step (t, act) = some th) : ∃ place', Tidy { s with threads := th } place' := by
  unfold Threads.step at hstep
  obtain ⟨hlt, hstep⟩ := Option.ite_none_right_eq_some.1 hstep
  cases act with
  | next =>
      obtain ⟨hcare, hmakes, hwrites⟩ := hcare
      obtain ⟨⟨place', hsound⟩, hun, hleft, hclock⟩ :=
        h.sound.next owesChange_ok (fun id hid => (hmakes id hid).symm) hlt hcare hstep
      have hlatest : Latest th = Latest s.threads := by
        unfold Latest
        rw [hleft]
      refine ⟨place', h.of_left (by rw [hlatest]; exact hsound) hleft hclock ?_ ?_⟩
      · intro id
        rw [hun, hleft]
        exact h.unpinned id
      · intro id
        rcases Threads.next_disk h.sound.wf hstep id with hd | ⟨hw, f, hf, hd⟩
        · exact .inl hd
        · right
          refine ⟨?_, hwrites id hw⟩
          rw [hd, hleft]
          exact ((h.sound.threads t).writes id hw).2 f hf
  | fetch id =>
      obtain ⟨hout, hstep⟩ := Option.ite_none_right_eq_some.1 hstep
      cases hstep
      exact ⟨place, h.of_left (h.sound.fetch hlt hout id) rfl rfl h.unpinned fun _ => .inl rfl⟩
  | newPage fd =>
      obtain ⟨hout, hstep⟩ := Option.ite_none_right_eq_some.1 hstep
      cases hstep
      exact ⟨place, h.of_left (h.sound.newPage hlt hout fd _) rfl rfl h.unpinned fun _ => .inl rfl⟩
  | change id c =>
      obtain ⟨hout, hstep⟩ := Option.ite_none_right_eq_some.1 hstep
      obtain ⟨k, hfind, rfl⟩ := Option.map_eq_some_iff.1 hstep
      exact ⟨place, h.change hlt hout hfind c⟩
  | unpin id d =>
      obtain ⟨hout, hstep⟩ := Option.ite_none_right_eq_some.1 hstep
      obtain ⟨k, hfind, rfl⟩ := Option.map_eq_some_iff.1 hstep
      exact ⟨place, h.unpin hlt hout hfind d (hcare k hfind)⟩

theorem Tidy.step [Zero α] (h : Tidy s place) {a : CleanStep α} (hcare : Cleaning.Careful s a)
    (hstep : Cleaning.step s a = some s') : ∃ place', Tidy s' place' := by
  cases a with
  | thread t act =>
      obtain ⟨th, hth, rfl⟩ := Option.map_eq_some_iff.1 hstep
      exact h.thread hcare hth
  | copy key =>
      have hcopy : s.copy key = some s' := hstep
      unfold Cleaning.copy at hcopy
      split at hcopy
      · next f _ hf =>
          obtain ⟨-, hcopy⟩ := Option.ite_none_right_eq_some.1 hcopy
          cases hcopy
          exact ⟨place, h.copy hf⟩
      · cases hcopy
  | write =>
      have hwrite : s.write = some s' := hstep
      unfold Cleaning.write at hwrite
      split at hwrite
      · next hc =>
          cases hwrite
          exact ⟨place, h.write hc⟩
      · cases hwrite
  | clear =>
      have hclear : s.clear = some s' := hstep
      unfold Cleaning.clear at hclear
      split at hclear
      · next hc =>
          cases hclear
          exact ⟨place, h.clear hc hcare⟩
      · cases hclear

theorem Tidy.start [Zero α] (nthreads poolSize : Nat) (disk : PageId → α) (len no : Nat → Nat) :
    ∃ place, Tidy (Cleaning.start nthreads poolSize disk len no) place :=
  ⟨_, Sound.start nthreads poolSize disk len no fun _ => rfl, fun _ => le_rfl, fun _ => le_rfl, fun _ => le_rfl,
    fun _ _ _ hc => (by cases hc), fun _ _ _ hc => (by cases hc)⟩

/-- In careful runs a clean page that no one has pinned is the page on the disk, and the page that
the cleaner is about to write over is no newer than its copy. -/
theorem run_clean [Zero α] (nthreads poolSize : Nat) (disk : PageId → α) (len no : Nat → Nat) (acts : List (CleanStep α))
    (hcare : Along Cleaning.step Cleaning.Careful (Cleaning.start nthreads poolSize disk len no) acts)
    (hrun : run Cleaning.step (Cleaning.start nthreads poolSize disk len no) acts = some s) :
    (∀ id f, s.pool.pageTable.lookup id = some f → (s.pool.pages f).pinCount = 0 →
        (s.pool.pages f).isDirty = false → (s.pool.pages f).data = s.pool.disk id) ∧
      ∀ f id c, s.cleaner = .copied f (some id) c → (s.pool.disk id).stamp ≤ c.stamp := by
  obtain ⟨place, h⟩ := run_invariant_along (I := fun s => ∃ place, Tidy s place)
    (fun _ _ _ ⟨place, h⟩ hP hs => h.step hP hs) acts _ s (Tidy.start nthreads poolSize disk len no) hcare hrun
  refine ⟨?_, fun f id c hc => (h.copied f id c hc).2⟩
  intro id f hl hpin hclean
  have hf := (h.sound.wf.table id f).1 hl
  have hdata : (s.pool.pages f).data = s.threads.left id := h.sound.stored.data id f hf
  have hdisk : s.pool.disk id = s.threads.left id :=
    ((h.sound.stored.clean id f hf hclean).resolve_right (h.sound.not_owed owesChange_ok hf hpin)).1
  exact hdata.trans hdisk.symm

/-! ## Two runs -/

/-- Thread 0 brings in 16 pages, so that none of 16 frames is free. -/
def filled : List (CleanStep Nat) :=
  (List.range 16).flatMap fun no =>
    .thread 0 (.fetch ⟨3, no⟩) :: List.replicate 9 (.thread 0 .next) ++ [.thread 0 (.unpin ⟨3, no⟩ false)]

/-- It fetches a page, writes into it and gives it back dirty, and the cleaner copies it. -/
def changedAndCopied : List (CleanStep Nat) :=
  filled ++ .thread 0 (.fetch ⟨3, 0⟩) :: List.replicate 3 (.thread 0 .next) ++
    [.thread 0 (.change ⟨3, 0⟩ 7), .thread 0 (.unpin ⟨3, 0⟩ true), .copy ⟨3, 0⟩]

/-- The cleaner writes the page and cleans it while the thread does not have it. -/
def cleaned : List (CleanStep Nat) := changedAndCopied ++ [.write, .clear]

theorem run_clean_once : ∃ s,
    run Cleaning.step (Cleaning.start 1 16 (fun _ => 0) (fun _ => 16) fun _ => 16) cleaned = some s ∧ (s.pool.pages 0).isDirty = false ∧ (s.pool.pages 0).data = s.pool.disk ⟨3, 0⟩ := by
  have hvals : (run Cleaning.step (Cleaning.start 1 16 (fun _ => 0) (fun _ => 16) fun _ => 16) cleaned).map
      (fun s => (s.pool.pageTable.lookup ⟨3, 0⟩, (s.pool.pages 0).pinCount, (s.pool.pages 0).isDirty)) =
      some (some 0, 0, false) := by
    decide +kernel
  obtain ⟨s, hrun, hs⟩ := Option.map_eq_some_iff.1 hvals
  obtain ⟨hl, hs⟩ := Prod.mk.inj hs
  obtain ⟨hpin, hclean⟩ := Prod.mk.inj hs
  exact ⟨s, hrun, hclean,
    (run_clean 1 16 (fun _ => 0) (fun _ => 16) (fun _ => 16) cleaned (by decide +kernel) hrun).1 _ _ hl hpin hclean⟩

/-- The thread changes the page again and gives it back before the cleaner has written its copy. -/
def changedAgain : List (CleanStep Nat) :=
  changedAndCopied ++ .thread 0 (.fetch ⟨3, 0⟩) :: List.replicate 3 (.thread 0 .next) ++
    [.thread 0 (.change ⟨3, 0⟩ 8), .thread 0 (.unpin ⟨3, 0⟩ true), .write, .clear]

theorem lost_changed_again : ¬ ∀ (nthreads poolSize : Nat) (disk : PageId → Nat) (len no : Nat → Nat)
    (acts : List (CleanStep Nat)) (s : Cleaning Nat),
    run Cleaning.step (Cleaning.start nthreads poolSize disk len no) acts = some s →
      ∀ id f, s.pool.pageTable.lookup id = some f → (s.pool.pages f).pinCount = 0 →
        (s.pool.pages f).isDirty = false → (s.pool.pages f).data = s.pool.disk id := by
  intro hall
  have hvals : (run Cleaning.step (Cleaning.start 1 16 (fun _ => 0) (fun _ => 16) fun _ => 16) changedAgain).map
      (fun s => (s.pool.pageTable.lookup ⟨3, 0⟩, (s.pool.pages 0).pinCount, (s.pool.pages 0).isDirty,
        (s.pool.pages 0).data.data, (s.pool.disk ⟨3, 0⟩).data)) =
      some (some 0, 0, false, 8, 7) := by
    decide +kernel
  obtain ⟨s, hrun, hs⟩ := Option.map_eq_some_iff.1 hvals
  obtain ⟨hl, hs⟩ := Prod.mk.inj hs
  obtain ⟨hpin, hs⟩ := Prod.mk.inj hs
  obtain ⟨hclean, hs⟩ := Prod.mk.inj hs
  obtain ⟨hdata, hdisk⟩ := Prod.mk.inj hs
  rw [hall 1 16 _ _ _ changedAgain s hrun _ _ hl hpin hclean, hdisk] at hdata
  cases hdata

end Rmdb.Buffer
