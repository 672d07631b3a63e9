import Rmdb.Buffer.Sound

/-!
# Stale pages

A dirty victim leaves the page table before its content is written, and a thread that fetches
it in between reads the disk.  In the runs in which no thread does so (`Careful`) no fetch
returns a content older than one unpinned dirty before (`run_not_stale`);
`stale_evicted` is a run in which one does.
-/

namespace Rmdb.Buffer

open Rmdb.Lib (run Along run_invariant_along)

variable {α : Type} {m m' : BufferPool α} {P : α → Prop} {f : FrameId} {id : PageId}

/-! ## What is true of every content -/

/-- `P` is true of what the frames and the disk hold. -/
def Within (P : α → Prop) (m : BufferPool α) : Prop := (∀ f, P (m.pages f).data) ∧ ∀ id, P (m.disk id)

theorem Within.congr (h : Within P m) (hpages : m'.pages = m.pages) (hdisk : m'.disk = m.disk) : Within P m' := by
  unfold Within
  rw [hpages, hdisk]
  exact h

theorem Within.setPage (h : Within P m) {p : Page α} (hp : P p.data) : Within P (m.setPage f p) := by
  refine ⟨fun g => ?_, h.2⟩
  show P (Function.update m.pages f p g).data
  by_cases hg : g = f
  · rw [hg, Function.update_self]
    exact hp
  · rw [Function.update_of_ne hg]
    exact h.1 g

theorem Within.writePage (h : Within P m) {c : α} (hc : P c) : Within P (m.writePage id c) := by
  refine ⟨h.1, fun id' => ?_⟩
  show P (Function.update m.disk id c id')
  by_cases hid : id' = id
  · rw [hid, Function.update_self]
    exact hc
  · rw [Function.update_of_ne hid]
    exact h.2 id'

theorem Within.writeOld (h : Within P m) (r : Reserved) : Within P (m.writeOld r) := by
  unfold BufferPool.writeOld BufferPool.writeBack
  split
  · split
    · exact h.writePage (h.1 r.frame)
    · exact h
  · exact h

theorem Within.tryReserve (h : Within P m) {place : FrameId → Place} (hwf : Wf m place) {sh : Nat} {r : Reserved}
    (hr : m.tryReserve sh = some (r, m')) : Within P m' := by
  have ht := hwf.tryReserve hr
  exact (h.setPage (f := r.frame) (p := { m.pages r.frame with pinCount := 1 }) (h.1 r.frame)).congr ht.pages ht.disk

theorem Within.pinResident (h : Within P m) : Within P (m.pinResident id f) := by
  obtain ⟨hpages, hdisk, -⟩ := pinResident_fields m id f
  exact (h.setPage (f := f) (p := { m.pages f with pinCount := (m.pages f).pinCount + 1 }) (h.1 f)).congr hpages hdisk

theorem data_setPage {m : BufferPool α} {f : FrameId} {p : Page α} (hp : p.data = (m.pages f).data) (g : FrameId) :
    ((m.setPage f p).pages g).data = (m.pages g).data := by
  show (Function.update m.pages f p g).data = _
  by_cases hg : g = f
  · rw [hg, Function.update_self]
    exact hp
  · rw [Function.update_of_ne hg]

/-- What a step of a call does to the contents: nothing, or it writes what its thread has to write, or it
brings zeros or a content of the disk into a frame. -/
inductive Contents [Zero α] (s s' : Threads α) (t : Nat) : Prop
  | same (pages : ∀ f, (s'.pool.pages f).data = (s.pool.pages f).data) (disk : s'.pool.disk = s.pool.disk)
  | written {r : Reserved} (frame : (s.pc t).frame = some r.frame)
      (writes : (s.pc t).writes = if r.needFlush then r.oldPageId else none) (pool : s'.pool = s.pool.writeOld r)
  | brought {f : FrameId} {p : Page (Image α)} (content : p.data = 0 ∨ ∃ id, p.data = s.pool.disk id)
      (pages : s'.pool.pages = (s.pool.setPage f p).pages) (disk : s'.pool.disk = s.pool.disk)

section Steps

variable [Zero α] {s s' : Threads α} {t : Nat}

theorem Contents.reserved {place : FrameId → Place} (hwf : Wf s.pool place) {sh : Nat} {r : Reserved}
    {m : BufferPool (Image α)} (hr : s.pool.tryReserve sh = some (r, m)) (p : Pc) :
    Contents s ((s.withPool m).goto t p) t := by
  have ht := hwf.tryReserve hr
  refine .same (fun f => ?_) ht.disk
  show (m.pages f).data = _
  rw [ht.pages]
  exact data_setPage (f := r.frame) (p := { s.pool.pages r.frame with pinCount := 1 }) rfl f

theorem Contents.pinned (id : PageId) (f : FrameId) (p : Pc) :
    Contents s (((s.withPool (s.pool.pinResident id f)).addPin t id f).goto t p) t := by
  obtain ⟨hpages, hdisk, -⟩ := pinResident_fields s.pool id f
  refine .same (fun g => ?_) hdisk
  show ((s.pool.pinResident id f).pages g).data = _
  rw [hpages]
  exact data_setPage (f := f) (p := { s.pool.pages f with pinCount := (s.pool.pages f).pinCount + 1 }) rfl g

/-- Each step inside a call, by where the thread stands. -/
theorem Threads.next_contents {place : FrameId → Place} (hwf : Wf s.pool place) (hstep : s.next t = some s') :
    Contents s s' t := by
  cases hpc : s.pc t with
  | idle => simp [Threads.next, hpc] at hstep
  | fetched id f b => simp [Threads.next, hpc] at hstep
  | looping id b =>
      simp only [Threads.next, hpc] at hstep
      split at hstep
      · cases hstep
      · cases hstep
        exact .same (fun _ => rfl) rfl
  | looking id b =>
      simp only [Threads.next, hpc] at hstep
      split at hstep
      · cases hstep
        exact .same (fun _ => rfl) rfl
      · split at hstep
        · cases hstep
          exact .same (data_setPage rfl) rfl
        · cases hstep
          exact .same (fun _ => rfl) rfl
  | pinning id b =>
      simp only [Threads.next, hpc] at hstep
      split at hstep
      · cases hstep
        exact .same (fun _ => rfl) rfl
      · split at hstep
        · cases hstep
          exact .same (fun _ => rfl) rfl
        · split at hstep
          · cases hstep
            exact .same (fun _ => rfl) rfl
          · cases hstep
            exact .pinned _ _ _
  | waiting id f b =>
      simp only [Threads.next, hpc] at hstep
      split at hstep
      · cases hstep
      · cases hstep
        exact .same (fun _ => rfl) rfl
  | claiming id b =>
      simp only [Threads.next, hpc] at hstep
      split at hstep
      · cases hstep
        exact .same (fun _ => rfl) rfl
      · split at hstep
        · cases hstep
          exact .same (fun _ => rfl) rfl
        · cases hstep
          exact .same (fun _ => rfl) rfl
  | reserving id k b =>
      simp only [Threads.next, hpc] at hstep
      split at hstep
      · cases hstep
        exact .same (fun _ => rfl) rfl
      · split at hstep
        · cases hstep
          exact .same (fun _ => rfl) rfl
        · next r m hr =>
            cases hstep
            exact .reserved hwf hr _
  | writing id r b =>
      simp only [Threads.next, hpc] at hstep
      cases hstep
      exact .written (r := r) (by rw [hpc]; rfl) (by rw [hpc]; rfl) rfl
  | reading id r b =>
      simp only [Threads.next, hpc] at hstep
      split at hstep
      · cases hstep
        exact .brought (.inr ⟨id, rfl⟩) rfl rfl
      · cases hstep
        exact .same (fun _ => rfl) rfl
  | throwing id f b =>
      simp only [Threads.next, hpc] at hstep
      cases hstep
      exact .same (data_setPage rfl) rfl
  | publishing id r b =>
      simp only [Threads.next, hpc] at hstep
      cases hstep
      exact .same (data_setPage rfl) rfl
  | newReserving id k =>
      simp only [Threads.next, hpc] at hstep
      split at hstep
      · cases hstep
        exact .same (fun _ => rfl) rfl
      · split at hstep
        · cases hstep
          exact .same (fun _ => rfl) rfl
        · next r m hr =>
            cases hstep
            exact .reserved hwf hr _
  | newWriting id r =>
      simp only [Threads.next, hpc] at hstep
      cases hstep
      exact .written (r := r) (by rw [hpc]; rfl) (by rw [hpc]; rfl) rfl
  | newPublishing id r =>
      simp only [Threads.next, hpc] at hstep
      cases hstep
      exact .brought (.inl rfl) rfl rfl
  | failing id b | freed id f b | ending id f b | leaving id f b | newLeaving id f =>
      simp only [Threads.next, hpc] at hstep
      cases hstep
      exact .same (fun _ => rfl) rfl

/-- The steps of a call bring no content in but zeros. -/
theorem Within.next {P : Image α → Prop} (h : Within P s.pool) (h0 : P 0) {place : FrameId → Place}
    (hwf : Wf s.pool place) (hstep : s.next t = some s') : Within P s'.pool := by
  cases s.next_contents hwf hstep with
  | same hpages hdisk =>
      refine ⟨fun f => ?_, fun id => ?_⟩
      · rw [hpages]
        exact h.1 f
      · rw [hdisk]
        exact h.2 id
  | written hframe hwrites hpool =>
      rw [hpool]
      exact h.writeOld _
  | brought hcontent hpages hdisk =>
      refine (h.setPage ?_).congr hpages hdisk
      rcases hcontent with hzero | ⟨id, hid⟩
      · rw [hzero]
        exact h0
      · rw [hid]
        exact h.2 id

end Steps

theorem Within.unpinPage (h : Within P m) {place : FrameId → Place} (hwf : Wf m place) (hf : place f = .resident id)
    (d : Bool) : Within P (m.unpinPage id d).2 := by
  obtain ⟨-, hpages, hdisk, -⟩ := unpinPage_resident hwf hf d
  have hset := h.setPage (f := f) (h.1 f)
    (p := { m.pages f with
      isDirty := (m.pages f).isDirty || d
      pinCount := (m.pages f).pinCount - 1 })
  exact hset.congr hpages hdisk

/-! ## No stale page -/

/-- A content no older than the one last unpinned dirty. -/
def Fresh (s : Threads α) (id : PageId) (c : Image α) : Prop := s.unpinned id ≤ c.stamp

/-- No one owes anything: contents that are not unpinned dirty may be lost. -/
def owesNothing : List Pin → FrameId → Prop := fun _ _ => False

theorem owesNothing_ok : OwedOk owesNothing := ⟨fun _ _ _ h => h, fun _ _ h => h.elim⟩

structure Current (s : Threads α) (place : FrameId → Place) : Prop where
  sound : Sound s place (Fresh s) (owesNothing s.pins)
  stamps : Within (fun c : Image α => c.stamp ≤ s.clock) s.pool

def Threads.start [Zero α] (nthreads poolSize : Nat) (disk : PageId → α) (len no : Nat → Nat) : Threads α where
  pool := Buffer.start poolSize (fun id => ⟨disk id, 0⟩) len no
  nthreads := nthreads
  pc _ := .idle
  pins := []
  clock := 0
  left id := ⟨disk id, 0⟩
  unpinned _ := 0

variable [Zero α] {s s' : Threads α} {place place' : FrameId → Place}

theorem not_resident_start (poolSize : Nat) (id : PageId) (f : FrameId) :
    (if f < poolSize then Place.free else .outside) ≠ .resident id := by
  split <;> exact fun hc => (by cases hc)

theorem Sound.start (nthreads poolSize : Nat) (disk : PageId → α) (len no : Nat → Nat)
    {ok : PageId → Image α → Prop} {owed : FrameId → Prop} (hok : ∀ id, ok id ⟨disk id, 0⟩) :
    Sound (Threads.start nthreads poolSize disk len no) (fun f => if f < poolSize then .free else .outside) ok owed := by
  have hno : ∀ {β : Type} (o : Option β) (x : β), o = none → o ≠ some x := fun o x h hc => by
    rw [h] at hc
    cases hc
  refine ⟨Wf.start poolSize _ _ no, ⟨?_, ?_, ?_⟩, fun k hk => absurd hk List.not_mem_nil, ?_, ?_, ?_, ?_,
    fun _ _ => rfl⟩
  · exact fun id f hf => absurd hf (not_resident_start poolSize id f)
  · exact fun id f hf => absurd hf (not_resident_start poolSize id f)
  · exact fun id _ => .inl ⟨hok id, fun hk => hk.elim⟩
  · exact fun id f hf => absurd hf (not_resident_start poolSize id f)
  · intro t
    refine ⟨?_, ?_, ?_, ?_, ?_, ?_, ?_⟩
    · exact fun _ hc => (by cases hc)
    · exact fun _ hc => (by cases hc)
    · exact fun _ hc => (by cases hc)
    · exact fun _ hc => (by cases hc)
    · exact fun _ _ _ hc => (by cases hc)
    · exact fun _ _ hc => (by cases hc)
    · exact fun _ _ hc => (by cases hc)
  · exact fun _ _ _ hc => (by cases hc)
  · exact fun _ _ _ hc => (by cases hc)

omit [Zero α] in
theorem Current.change (h : Current s place) {t : Nat} (hlt : t < s.nthreads) (hout : (s.pc t).outside = true)
    {k : Pin} (hk : k ∈ s.pins) (c : α) : Current (s.changeAt t k c) place := by
  have hkp := h.sound.held k hk
  have hst := h.sound.stored
  refine ⟨h.sound.change hlt hout hk c ?_ fun _ _ _ ho => ho, ?_⟩
  · refine hst.setResident (p := { s.pool.pages k.frame with data := ⟨c, s.clock + 1⟩ }) hkp ?_
      (hst.clean k.id k.frame hkp)
    show s.unpinned k.id ≤ s.clock + 1
    have h1 : s.unpinned k.id ≤ (s.pool.pages k.frame).data.stamp := hst.data k.id k.frame hkp
    have h2 := h.stamps.1 k.frame
    omega
  · have hlater : Within (fun c : Image α => c.stamp ≤ s.clock + 1) s.pool :=
      ⟨fun f => Nat.le_succ_of_le (h.stamps.1 f), fun id => Nat.le_succ_of_le (h.stamps.2 id)⟩
    exact hlater.setPage le_rfl

omit [Zero α] in
theorem Current.unpin (h : Current s place) {t : Nat} (hlt : t < s.nthreads) (hout : (s.pc t).outside = true)
    {k : Pin} {id : PageId} (hfind : s.find t id = some k) (d : Bool) :
    Current ((s.unpinAt t k d).goto t .idle) place := by
  obtain ⟨hk, -, -⟩ := Threads.find_spec hfind
  have hkp := h.sound.held k hk
  have hst := h.sound.stored
  have hdata : s.unpinned k.id ≤ (s.pool.pages k.frame).data.stamp := hst.data k.id k.frame hkp
  obtain ⟨-, hpages, hdisk, -⟩ := unpinPage_resident h.sound.wf hkp d
  have hun : ∀ id', id' ≠ k.id → (s.unpinAt t k d).unpinned id' = s.unpinned id' := by
    intro id' hid
    show (if d = true then Function.update s.unpinned k.id _ else s.unpinned) id' = _
    split
    · exact Function.update_of_ne hid ..
    · rfl
  have hgood : ∀ id' c, (∀ f, place f ≠ .resident id') → Fresh s id' c →
      Fresh ((s.unpinAt t k d).goto t .idle) id' c := by
    intro id' c hid ho
    show (s.unpinAt t k d).unpinned id' ≤ c.stamp
    rw [hun id' fun hc => hid k.frame (hc ▸ hkp)]
    exact ho
  have hhas : ∀ id', (s.unpinAt t k d).unpinned id' = s.unpinned id' → Has s.pool (Fresh s) (fun _ => False) id' →
      Has (s.unpinAt t k d).pool (Fresh ((s.unpinAt t k d).goto t .idle)) (fun _ => False) id' := by
    intro id' heq ho
    refine ho.of_disk fun hd => ?_
    show (s.unpinAt t k d).unpinned id' ≤ ((s.pool.unpinPage k.id d).2.disk id').stamp
    rw [heq, hdisk]
    exact hd
  refine ⟨h.sound.unpin hlt hout hfind d ⟨?_, ?_, ?_⟩ (fun _ => hdata) hgood, h.stamps.unpinPage h.sound.wf hkp d⟩
  · intro id' g hg
    show (s.unpinAt t k d).unpinned id' ≤ ((s.pool.unpinPage k.id d).2.pages g).data.stamp
    rw [hpages]
    by_cases hgk : g = k.frame
    · subst hgk
      obtain rfl : k.id = id' := Place.resident.inj (hkp.symm.trans hg)
      rw [Function.update_self]
      show (if d = true then Function.update s.unpinned k.id _ else s.unpinned) k.id ≤ _
      split
      · rw [Function.update_self]
      · exact hdata
    · rw [Function.update_of_ne hgk, hun id' fun hc => hgk (h.sound.wf.resident_inj hg (hc ▸ hkp))]
      exact hst.data id' g hg
  · intro id' g hg
    show ((s.pool.unpinPage k.id d).2.pages g).isDirty = false → _
    rw [hpages]
    by_cases hgk : g = k.frame
    · subst hgk
      obtain rfl : k.id = id' := Place.resident.inj (hkp.symm.trans hg)
      rw [Function.update_self]
      intro hclean
      obtain ⟨hd1, rfl⟩ := Bool.or_eq_false_iff.1 hclean
      exact (hst.clean k.id k.frame hkp hd1).imp_left (hhas k.id rfl)
    · rw [Function.update_of_ne hgk]
      exact fun hclean => (hst.clean id' g hg hclean).imp_left
        (hhas id' (hun id' fun hc => hgk (h.sound.wf.resident_inj hg (hc ▸ hkp))))
  · intro id' hid
    exact (hst.away id' hid).imp_left (hhas id' (hun id' fun hc => hid k.frame (hc ▸ hkp)))

theorem Current.step (h : Current s place) {act : Nat × Act α} (hcare : Careful s act) (hstep : s.step act = some s') :
    ∃ place', Current s' place' := by
  obtain ⟨t, a⟩ := act
  unfold Threads.step at hstep
  obtain ⟨hlt, hstep⟩ := Option.ite_none_right_eq_some.1 hstep
  cases a with
  | next =>
      have hzero : ∀ id ∈ (s.pc t).makes, Fresh s id 0 := by
        intro id hid
        obtain ⟨-, -, -, hz⟩ := (hcare rfl).2 id hid
        show s.unpinned id ≤ 0
        omega
      obtain ⟨⟨place', hsound⟩, hun, -, hclock⟩ :=
        h.sound.next owesNothing_ok hzero hlt hcare hstep
      refine ⟨place', ?_, ?_⟩
      · have hfresh : Fresh s' = Fresh s := by
          unfold Fresh
          rw [hun]
        rw [hfresh]
        exact hsound
      · rw [hclock]
        exact h.stamps.next (Nat.zero_le _) h.sound.wf hstep
  | fetch id =>
      obtain ⟨hout, hstep⟩ := Option.ite_none_right_eq_some.1 hstep
      cases hstep
      exact ⟨place, h.sound.fetch hlt hout id, h.stamps⟩
  | newPage fd =>
      obtain ⟨hout, hstep⟩ := Option.ite_none_right_eq_some.1 hstep
      cases hstep
      exact ⟨place, h.sound.newPage hlt hout fd _, h.stamps.congr rfl rfl⟩
  | change id c =>
      obtain ⟨hout, hstep⟩ := Option.ite_none_right_eq_some.1 hstep
      obtain ⟨k, hfind, rfl⟩ := Option.map_eq_some_iff.1 hstep
      exact ⟨place, h.change hlt hout (Threads.find_spec hfind).1 c⟩
  | unpin id d =>
      obtain ⟨hout, hstep⟩ := Option.ite_none_right_eq_some.1 hstep
      obtain ⟨k, hfind, rfl⟩ := Option.map_eq_some_iff.1 hstep
      exact ⟨place, h.unpin hlt hout hfind d⟩

/-- In a run in which no page is read that a thread has yet to write, and `new_page` makes pages
that are new, a fetch returns no content older than what was unpinned dirty of the page
before it began.  The newest content of a page that is in no table and not being read is on the disk,
outside the window of its eviction: from `reserve_victim_nolock`, which takes the page out of its
table, to the `write_page` of its image (`Pending`).  In the window it is in the frame that a thread has
reserved, and the disk may be behind. -/
theorem run_not_stale (nthreads poolSize : Nat) (disk : PageId → α) (len no : Nat → Nat) (acts : List (Nat × Act α))
    (hcare : Along Threads.step Careful (Threads.start nthreads poolSize disk len no) acts)
    (hrun : run Threads.step (Threads.start nthreads poolSize disk len no) acts = some s) :
    (∀ t id f began, s.pc t = .fetched id (some f) began →
        s.pool.pageTable.lookup id = some f ∧ began ≤ (s.pool.pages f).data.stamp) ∧
      (∀ id, s.pool.pageTable.lookup id = none → s.pool.pageIoInflight id = false → ¬ s.Pending id →
        s.unpinned id ≤ (s.pool.disk id).stamp) ∧
      ∀ t id, (s.pc t).writes = some id → s.pool.pageTable.lookup id = none ∧
        ∃ f, (s.pc t).frame = some f ∧ s.unpinned id ≤ (s.pool.pages f).data.stamp := by
  have hstart : ∃ place, Current (Threads.start nthreads poolSize disk len no) place :=
    ⟨_, Sound.start nthreads poolSize disk len no fun _ => le_rfl, fun _ => le_rfl, fun _ => le_rfl⟩
  obtain ⟨place, h⟩ := run_invariant_along (I := fun s => ∃ place, Current s place)
    (fun _ _ _ ⟨place, h⟩ hP hs => h.step hP hs) acts _ s hstart hcare hrun
  refine ⟨?_, ?_, ?_⟩
  · intro t id f began hpc
    obtain ⟨k, hk, -, rfl, rfl⟩ := (h.sound.threads t).keeps id f (by rw [hpc]; rfl)
    have hkp := h.sound.held k hk
    have hbegan : began ≤ s.unpinned k.id := (h.sound.threads t).since k.id began (by rw [hpc]; rfl)
    exact ⟨(h.sound.wf.table k.id k.frame).2 hkp, hbegan.trans (h.sound.stored.data k.id k.frame hkp)⟩
  · intro id hl _ hnot
    exact ((h.sound.stored.away id (h.sound.wf.lookup_none.1 hl)).resolve_right hnot).1
  · intro t id hw
    obtain ⟨hno, hdata⟩ := (h.sound.threads t).writes id hw
    obtain ⟨f, hf⟩ := Pc.frame_of_writes hw
    exact ⟨h.sound.wf.lookup_none.2 hno, f, hf, hdata f hf⟩

/-! ## Two runs -/

/-- Thread 0 fetches page 0, writes into it and gives it back dirty. -/
def readAndChanged : List (Nat × Act Nat) :=
  (0, .fetch ⟨3, 0⟩) :: List.replicate 9 (0, .next) ++ [(0, .change ⟨3, 0⟩ 7), (0, .unpin ⟨3, 0⟩ true)]

/-- A fetch past the end of the file throws; thread 0 takes the frame for another page, which is given
back, and then fetches the page. -/
def fetchedAgain : List (Nat × Act Nat) :=
  readAndChanged ++ (1, .fetch ⟨3, 128⟩) :: List.replicate 9 (1, .next) ++
    (0, .fetch ⟨3, 64⟩) :: List.replicate 9 (0, .next) ++ [(0, .unpin ⟨3, 64⟩ false)] ++
    (0, .fetch ⟨3, 0⟩) :: List.replicate 9 (0, .next)

theorem run_not_stale_fetched_again : ∃ s,
    run Threads.step (Threads.start 2 1 (fun _ => 0) (fun _ => 65) fun _ => 65) fetchedAgain = some s ∧
      s.pc 0 = .fetched ⟨3, 0⟩ (some 0) 1 ∧ 1 ≤ (s.pool.pages 0).data.stamp := by
  have hvals : (run Threads.step (Threads.start 2 1 (fun _ => 0) (fun _ => 65) fun _ => 65) fetchedAgain).map
      (fun s => s.pc 0) = some (.fetched ⟨3, 0⟩ (some 0) 1) := by
    decide +kernel
  obtain ⟨s, hrun, hpc⟩ := Option.map_eq_some_iff.1 hvals
  exact ⟨s, hrun, hpc,
    ((run_not_stale 2 1 (fun _ => 0) (fun _ => 65) (fun _ => 65) fetchedAgain (by decide +kernel) hrun).1 0 _ _ _ hpc).2⟩

/-- Thread 0 has taken the frame of page 0 and not written it yet when thread 1 fetches page 0. -/
def evicted : List (Nat × Act Nat) :=
  readAndChanged ++ (0, .fetch ⟨3, 64⟩) :: List.replicate 4 (0, .next) ++
    (1, .fetch ⟨3, 0⟩) :: List.replicate 10 (1, .next)

theorem stale_evicted : ¬ ∀ (nthreads poolSize : Nat) (disk : PageId → Nat) (len no : Nat → Nat)
    (acts : List (Nat × Act Nat)) (s : Threads Nat),
    run Threads.step (Threads.start nthreads poolSize disk len no) acts = some s →
      ∀ t id f began, s.pc t = .fetched id (some f) began → began ≤ (s.pool.pages f).data.stamp := by
  intro hall
  have hvals : (run Threads.step (Threads.start 2 2 (fun _ => 0) (fun _ => 65) fun _ => 65) evicted).map
      (fun s => (s.pc 1, (s.pool.pages 1).data.stamp)) = some (.fetched ⟨3, 0⟩ (some 1) 1, 0) := by
    decide +kernel
  obtain ⟨s, hrun, hs⟩ := Option.map_eq_some_iff.1 hvals
  obtain ⟨hpc, hstamp⟩ := Prod.mk.inj hs
  have := hall 2 2 _ _ _ evicted s hrun 1 _ _ _ hpc
  omega

end Rmdb.Buffer
