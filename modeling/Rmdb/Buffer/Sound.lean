import Rmdb.Buffer.Threads
import Rmdb.Buffer.Calls

/-!
# Frames and contents under concurrency

The invariant of the pool with calls under way (`Sound`), for any notion `ok` of a content that
will do and `owed` of a frame that its holder still owes, and that it is kept by every step of
`fetch_page` and `new_page` that does not read a page whose newest content another
thread has yet to write (`Careful`).
-/

namespace Rmdb.Buffer

variable {α : Type}

/-- The frame that the thread has reserved and not yet entered. -/
def Pc.frame : Pc → Option FrameId
  | .writing _ r _ | .reading _ r _ | .publishing _ r _ | .newWriting _ r | .newPublishing _ r => some r.frame
  | .throwing _ f _ => some f
  | _ => none

/-- The page whose content the thread has to write. -/
def Pc.writes : Pc → Option PageId
  | .writing _ r _ | .newWriting _ r => if r.needFlush then r.oldPageId else none
  | _ => none

/-- The page that the thread is bringing in. -/
def Pc.loads : Pc → Option PageId
  | .reserving id _ _ | .failing id _ | .writing id _ _ | .reading id _ _ | .throwing id _ _ | .freed id _ _
  | .publishing id _ _ => some id
  | _ => none

/-- The page that the thread has marked as being read. -/
def Pc.marks : Pc → Option PageId
  | .ending id _ _ => some id
  | p => p.loads

/-- The page that the thread has pinned in its last call. -/
def Pc.keeps : Pc → Option (PageId × FrameId)
  | .ending id f _ | .leaving id f _ | .fetched id (some f) _ => some (id, f)
  | _ => none

/-- What was unpinned dirty of its page when the thread began to fetch it. -/
def Pc.since : Pc → Option (PageId × Nat)
  | .looping id b | .looking id b | .pinning id b | .waiting id _ b | .claiming id b | .reserving id _ b
  | .failing id b | .writing id _ b | .reading id _ b | .throwing id _ b | .freed id _ b | .publishing id _ b
  | .ending id _ b | .leaving id _ b | .fetched id _ b => some (id, b)
  | _ => none

/-- Some thread has the content of the page to write. -/
def Threads.Pending (s : Threads α) (id : PageId) : Prop := ∃ t < s.nthreads, (s.pc t).writes = some id

instance (s : Threads α) (id : PageId) : Decidable (s.Pending id) :=
  inferInstanceAs (Decidable (∃ t < s.nthreads, (s.pc t).writes = some id))

/-- The page that the thread reads next. -/
def Pc.reads : Pc → Option PageId
  | .reading id _ _ => some id
  | _ => none

/-- The new page that the thread enters next. -/
def Pc.makes : Pc → Option PageId
  | .newPublishing id _ => some id
  | _ => none

def Act.isNext : Act α → Bool
  | .next => true
  | _ => false

/-- The step reads no page from the disk that another thread has to write, and `new_page` enters
a page of which nothing is there and nothing was ever given back. -/
def Careful (s : Threads α) (act : Nat × Act α) : Prop :=
  act.2.isNext = true →
    (∀ id ∈ (s.pc act.1).reads, ¬ s.Pending id) ∧
      ∀ id ∈ (s.pc act.1).makes, s.pool.pageTable.lookup id = none ∧ s.pool.pageIoInflight id = false ∧
        ¬ s.Pending id ∧ s.unpinned id = 0

instance (s : Threads α) (act : Nat × Act α) : Decidable (Careful s act) :=
  inferInstanceAs (Decidable (_ → _ ∧ _))

/-- What holds of a thread. -/
structure ThreadOk (s : Threads α) (place : FrameId → Place) (ok : PageId → Image α → Prop) (t : Nat) : Prop where
  taken : ∀ f, (s.pc t).frame = some f → place f = .reserved ∧ (s.pool.pages f).pinCount = 1
  writes : ∀ id, (s.pc t).writes = some id → (∀ f, place f ≠ .resident id) ∧
    ∀ f, (s.pc t).frame = some f → ok id (s.pool.pages f).data
  loads : ∀ id, (s.pc t).loads = some id → ∀ f, place f ≠ .resident id
  marks : ∀ id, (s.pc t).marks = some id → s.pool.pageIoInflight id = true
  loaded : ∀ id r b, s.pc t = .publishing id r b →
    ok id (s.pool.pages r.frame).data ∧ ok id (s.pool.disk id) ∧ ¬ s.Pending id
  keeps : ∀ id f, (s.pc t).keeps = some (id, f) → ∃ k ∈ s.pins, k.thread = t ∧ k.id = id ∧ k.frame = f
  since : ∀ id b, (s.pc t).since = some (id, b) → b ≤ s.unpinned id

structure Sound (s : Threads α) (place : FrameId → Place) (ok : PageId → Image α → Prop)
    (owed : FrameId → Prop) : Prop where
  wf : Wf s.pool place
  stored : Stored s.pool place ok (fun _ => False) owed s.Pending
  held : ∀ k ∈ s.pins, place k.frame = .resident k.id
  pin : ∀ id f, place f = .resident id → (s.pool.pages f).pinCount = s.pins.countP fun k => k.frame = f
  threads : ∀ t, ThreadOk s place ok t
  apart : ∀ t u f, (s.pc t).frame = some f → (s.pc u).frame = some f → t = u
  alone : ∀ t u id, (s.pc t).marks = some id → (s.pc u).marks = some id → t = u
  idle : ∀ t, s.nthreads ≤ t → s.pc t = .idle

variable {s s' : Threads α} {place place' : FrameId → Place} {ok ok' : PageId → Image α → Prop}
  {owed owed' : FrameId → Prop} {t : Nat} {p : Pc} {id : PageId} {f : FrameId} {r : Reserved}

/-- Who has a content to write has it in a frame. -/
theorem Pc.frame_of_writes (h : p.writes = some id) : ∃ f, p.frame = some f := by
  cases p with
  | writing id r b => exact ⟨r.frame, rfl⟩
  | newWriting id r => exact ⟨r.frame, rfl⟩
  | _ => cases h

theorem Pc.marks_of_loads (h : p.loads = some id) : p.marks = some id := by
  cases p <;> simp_all [Pc.loads, Pc.marks]

/-- What holds of a thread, from what holds at the place where it stands. -/
theorem ThreadOk.of_pc (hpc : s.pc t = p)
    (taken : ∀ f, p.frame = some f → place f = .reserved ∧ (s.pool.pages f).pinCount = 1)
    (writes : ∀ id, p.writes = some id → (∀ f, place f ≠ .resident id) ∧
      ∀ f, p.frame = some f → ok id (s.pool.pages f).data)
    (loads : ∀ id, p.loads = some id → ∀ f, place f ≠ .resident id)
    (marks : ∀ id, p.marks = some id → s.pool.pageIoInflight id = true)
    (loaded : ∀ id r b, p = .publishing id r b →
      ok id (s.pool.pages r.frame).data ∧ ok id (s.pool.disk id) ∧ ¬ s.Pending id)
    (keeps : ∀ id f, p.keeps = some (id, f) → ∃ k ∈ s.pins, k.thread = t ∧ k.id = id ∧ k.frame = f)
    (since : ∀ id b, p.since = some (id, b) → b ≤ s.unpinned id) : ThreadOk s place ok t := by
  subst hpc
  exact ⟨taken, writes, loads, marks, loaded, keeps, since⟩

/-! ## What a step leaves to the other threads -/

/-- A step of `t` to `p`, as far as the other threads rely on it. -/
structure Effect (s s' : Threads α) (place place' : FrameId → Place) (ok ok' : PageId → Image α → Prop)
    (t : Nat) (p : Pc) : Prop where
  pc : s'.pc = Function.update s.pc t p
  nthreads : s'.nthreads = s.nthreads
  frames : ∀ f, place f = .reserved → (s.pc t).frame ≠ some f →
    place' f = .reserved ∧ s'.pool.pages f = s.pool.pages f
  absent : ∀ u ≠ t, ∀ id, (s.pc u).loads = some id ∨ (s.pc u).writes = some id →
    (∀ f, place f ≠ .resident id) → ∀ f, place' f ≠ .resident id
  marks : ∀ u ≠ t, ∀ id, (s.pc u).marks = some id → s.pool.pageIoInflight id = true →
    s'.pool.pageIoInflight id = true
  disk : ∀ id, (∀ f, place f ≠ .resident id) → ¬ s.Pending id → s'.pool.disk id = s.pool.disk id
  pending : ∀ id, p.writes = some id → (s.pc t).writes = some id ∨ ∃ f, place f = .resident id
  pins : ∀ k ∈ s.pins, k.thread ≠ t →
    ∃ k' ∈ s'.pins, k'.thread = k.thread ∧ k'.id = k.id ∧ k'.frame = k.frame
  unpinned : ∀ id, s.unpinned id ≤ s'.unpinned id
  good : ∀ id c, (∀ f, place f ≠ .resident id) → ok id c → ok' id c

theorem Sound.lt_nthreads (h : Sound s place ok owed) (ht : s.pc t ≠ .idle) : t < s.nthreads := by
  by_contra hc
  exact ht (h.idle t (by omega))

theorem Effect.not_pending (he : Effect s s' place place' ok ok' t p)
    (hid : ∀ f, place f ≠ .resident id) (hnot : ¬ s.Pending id) : ¬ s'.Pending id := by
  rintro ⟨u, hu, hw⟩
  rw [he.nthreads] at hu
  rw [he.pc] at hw
  by_cases hut : u = t
  · subst hut
    rw [Function.update_self] at hw
    rcases he.pending id hw with hw | ⟨f, hf⟩
    · exact hnot ⟨u, hu, hw⟩
    · exact hid f hf
  · rw [Function.update_of_ne hut] at hw
    exact hnot ⟨u, hu, hw⟩

theorem Effect.thread (he : Effect s s' place place' ok ok' t p) (h : Sound s place ok owed)
    {u : Nat} (hut : u ≠ t) : ThreadOk s' place' ok' u := by
  have hu := h.threads u
  have hpc : s'.pc u = s.pc u := by
    rw [he.pc, Function.update_of_ne hut]
  have hframe : ∀ f, (s.pc u).frame = some f → place' f = .reserved ∧ s'.pool.pages f = s.pool.pages f := by
    intro f hf
    exact he.frames f (hu.taken f hf).1 fun hc => hut (h.apart u t f hf hc)
  refine ⟨?_, ?_, ?_, ?_, ?_, ?_, ?_⟩
  · intro f hf
    rw [hpc] at hf
    obtain ⟨hp, heq⟩ := hframe f hf
    exact ⟨hp, by rw [heq]; exact (hu.taken f hf).2⟩
  · intro id hw
    rw [hpc] at hw ⊢
    obtain ⟨hid, hdata⟩ := hu.writes id hw
    refine ⟨he.absent u hut id (.inr hw) hid, fun f hf => ?_⟩
    rw [(hframe f hf).2]
    exact he.good id _ hid (hdata f hf)
  · intro id hl
    rw [hpc] at hl
    exact he.absent u hut id (.inl hl) (hu.loads id hl)
  · intro id hm
    rw [hpc] at hm
    exact he.marks u hut id hm (hu.marks id hm)
  · intro id r b hp
    rw [hpc] at hp
    have hid := hu.loads id (by rw [hp]; rfl)
    obtain ⟨hdata, hdisk, hnot⟩ := hu.loaded id r b hp
    rw [(hframe r.frame (by rw [hp]; rfl)).2, he.disk id hid hnot]
    exact ⟨he.good id _ hid hdata, he.good id _ hid hdisk, he.not_pending hid hnot⟩
  · intro id f hk
    rw [hpc] at hk
    obtain ⟨k, hmem, rfl, rfl, rfl⟩ := hu.keeps id f hk
    exact he.pins k hmem hut
  · intro id b hs
    rw [hpc] at hs
    exact (hu.since id b hs).trans (he.unpinned id)

/-- The invariant after a step, from what it is for the thread of the step. -/
theorem Sound.of_effect (h : Sound s place ok owed) (he : Effect s s' place place' ok ok' t p)
    (hlt : t < s.nthreads) (hwf : Wf s'.pool place') (hstored : Stored s'.pool place' ok' (fun _ => False) owed' s'.Pending)
    (hheld : ∀ k ∈ s'.pins, place' k.frame = .resident k.id)
    (hpin : ∀ id f, place' f = .resident id →
      (s'.pool.pages f).pinCount = s'.pins.countP fun k => k.frame = f)
    (hthread : ThreadOk s' place' ok' t) (hapart : ∀ u ≠ t, ∀ f, p.frame = some f → (s.pc u).frame ≠ some f)
    (halone : ∀ u ≠ t, ∀ id, p.marks = some id → (s.pc u).marks ≠ some id) :
    Sound s' place' ok' owed' := by
  have hself : s'.pc t = p := by
    rw [he.pc, Function.update_self]
  have hother : ∀ u ≠ t, s'.pc u = s.pc u := fun u hut => by
    rw [he.pc, Function.update_of_ne hut]
  refine ⟨hwf, hstored, hheld, hpin, ?_, ?_, ?_, ?_⟩
  · intro u
    by_cases hut : u = t
    · rw [hut]
      exact hthread
    · exact he.thread h hut
  · intro u v f hu hv
    by_cases hut : u = t
    · by_cases hvt : v = t
      · rw [hut, hvt]
      · rw [hut, hself] at hu
        rw [hother v hvt] at hv
        exact absurd hv (hapart v hvt f hu)
    · by_cases hvt : v = t
      · rw [hvt, hself] at hv
        rw [hother u hut] at hu
        exact absurd hu (hapart u hut f hv)
      · rw [hother u hut] at hu
        rw [hother v hvt] at hv
        exact h.apart u v f hu hv
  · intro u v id hu hv
    by_cases hut : u = t
    · by_cases hvt : v = t
      · rw [hut, hvt]
      · rw [hut, hself] at hu
        rw [hother v hvt] at hv
        exact absurd hv (halone v hvt id hu)
    · by_cases hvt : v = t
      · rw [hvt, hself] at hv
        rw [hother u hut] at hu
        exact absurd hu (halone u hut id hv)
      · rw [hother u hut] at hu
        rw [hother v hvt] at hv
        exact h.alone u v id hu hv
  · intro u hu
    rw [he.nthreads] at hu
    have hut : u ≠ t := by omega
    rw [hother u hut]
    exact h.idle u hu

/-! ## Steps that touch no frame -/

theorem pending_of_pc (hpc : s'.pc = Function.update s.pc t p) (hn : s'.nthreads = s.nthreads)
    (hw : p.writes = (s.pc t).writes) : s'.Pending = s.Pending := by
  funext id
  unfold Threads.Pending
  rw [hn, hpc]
  refine propext (exists_congr fun u => and_congr_right fun _ => ?_)
  by_cases hut : u = t
  · subst hut
    rw [Function.update_self, hw]
  · rw [Function.update_of_ne hut]

/-- A step that moves its thread and sets marks. -/
theorem Sound.flags (h : Sound s place ok owed) (hlt : t < s.nthreads) {m : BufferPool (Image α)}
    (hsize : m.poolSize = s.pool.poolSize) (hpages : m.pages = s.pool.pages)
    (htable : m.pageTable = s.pool.pageTable) (hlru : m.replacer = s.pool.replacer)
    (hfree : m.freeFrames = s.pool.freeFrames) (hdisk : m.disk = s.pool.disk) (hlen : m.fileLen = s.pool.fileLen)
    (hframe : p.frame = none) (hwrites : p.writes = none) (hold : (s.pc t).writes = none)
    (hloads : ∀ id, p.loads = some id → ∀ f, place f ≠ .resident id)
    (hkeeps : ∀ x, p.keeps = some x → (s.pc t).keeps = some x)
    (hsince : ∀ id b, p.since = some (id, b) → b ≤ s.unpinned id)
    (hothers : ∀ u ≠ t, ∀ id, (s.pc u).marks = some id → s.pool.pageIoInflight id = true →
      m.pageIoInflight id = true)
    (hmarks : ∀ id, p.marks = some id → m.pageIoInflight id = true ∧ ∀ u ≠ t, (s.pc u).marks ≠ some id) :
    Sound ((s.withPool m).goto t p) place ok owed := by
  have hpend : ((s.withPool m).goto t p).Pending = s.Pending := pending_of_pc rfl rfl (hwrites.trans hold.symm)
  have hself : ((s.withPool m).goto t p).pc t = p := Function.update_self ..
  have he : Effect s ((s.withPool m).goto t p) place place ok ok t p := by
    refine ⟨rfl, rfl, fun f hf _ => ⟨hf, congrFun hpages f⟩, fun _ _ _ _ h => h, hothers,
      fun id _ _ => congrFun hdisk id, ?_, fun k hk _ => ⟨k, hk, rfl, rfl, rfl⟩, fun _ => le_rfl,
      fun _ _ _ h => h⟩
    intro id hw
    rw [hwrites] at hw
    cases hw
  refine h.of_effect he hlt (h.wf.congr hsize hpages htable hlru hfree) ?_ h.held ?_ ?_ ?_ ?_
  · rw [hpend]
    exact h.stored.congr hpages hdisk hlen
  · show ∀ id f, place f = .resident id → (m.pages f).pinCount = _
    rw [hpages]
    exact h.pin
  · refine .of_pc hself ?_ ?_ ?_ ?_ ?_ ?_ ?_
    · intro f hf
      rw [hframe] at hf
      cases hf
    · intro id hw
      rw [hwrites] at hw
      cases hw
    · intro id hl
      exact hloads id hl
    · intro id hm
      exact (hmarks id hm).1
    · intro id r b hp
      rw [hp] at hframe
      cases hframe
    · intro id f hk
      exact (h.threads t).keeps id f (hkeeps _ hk)
    · intro id b hs
      exact hsince id b hs
  · intro u _ f hf
    rw [hframe] at hf
    cases hf
  · exact fun u hut id hm => (hmarks id hm).2 u hut

/-! ## Pinning -/

/-- A notion of what the holders of a frame owe: new pins owe nothing, and only a held frame
is owed. -/
structure OwedOk (owed : List Pin → FrameId → Prop) : Prop where
  mono : ∀ k pins f, owed pins f → owed (k :: pins) f
  held : ∀ pins f, owed pins f → ∃ k ∈ pins, k.frame = f

variable {owe : List Pin → FrameId → Prop}

/-- A frame without pins is not owed. -/
theorem Sound.not_owed (h : Sound s place ok (owe s.pins)) (howe : OwedOk owe) (hf : place f = .resident id)
    (hpin : (s.pool.pages f).pinCount = 0) : ¬ owe s.pins f := by
  intro ho
  obtain ⟨k, hk, rfl⟩ := howe.held _ _ ho
  rw [h.pin id k.frame hf, List.countP_eq_zero] at hpin
  exact hpin k hk (by simp)

theorem pinResident_of_pinned {m : BufferPool α} (hpin : 0 < (m.pages f).pinCount) :
    m.pinResident id f = m.addPin f := by
  unfold BufferPool.pinResident
  rw [if_neg (by omega)]

theorem pinResident_fields (m : BufferPool α) (id : PageId) (f : FrameId) :
    (m.pinResident id f).pages = (m.addPin f).pages ∧ (m.pinResident id f).disk = m.disk ∧
      (m.pinResident id f).fileLen = m.fileLen ∧ (m.pinResident id f).pageIoInflight = m.pageIoInflight := by
  unfold BufferPool.pinResident
  split <;> exact ⟨rfl, rfl, rfl, rfl⟩

theorem Sound.hit (h : Sound s place ok (owe s.pins)) (howe : OwedOk owe) (hlt : t < s.nthreads)
    (hf : place f = .resident id) (hpcw : (s.pc t).writes = none)
    {b : Nat} (hb : b ≤ s.unpinned id) {m : BufferPool (Image α)} (hm : m = s.pool.pinResident id f) :
    Sound (((s.withPool m).addPin t id f).goto t (.fetched id (some f) b)) place ok
      (owe (⟨t, id, f, false⟩ :: s.pins)) := by
  subst hm
  obtain ⟨hpages, hdisk, hlen, hio⟩ := pinResident_fields s.pool id f
  have hwf : Wf (s.pool.pinResident id f) place := by
    by_cases hpin : (s.pool.pages f).pinCount = 0
    · exact h.wf.pinResident hf hpin
    · rw [pinResident_of_pinned (by omega)]
      exact h.wf.addPin (by omega)
  have hpend : (((s.withPool (s.pool.pinResident id f)).addPin t id f).goto t (.fetched id (some f) b)).Pending =
      s.Pending := pending_of_pc (p := .fetched id (some f) b) rfl rfl hpcw.symm
  have hpage : ∀ g, (s.pool.pinResident id f).pages g =
      Function.update s.pool.pages f { s.pool.pages f with pinCount := (s.pool.pages f).pinCount + 1 } g := by
    intro g
    rw [hpages]
    rfl
  have hself : (((s.withPool (s.pool.pinResident id f)).addPin t id f).goto t (.fetched id (some f) b)).pc t =
      .fetched id (some f) b := Function.update_self ..
  refine h.of_effect (t := t) (p := .fetched id (some f) b) ?_ hlt hwf ?_ ?_ ?_ ?_ ?_ ?_
  · refine ⟨rfl, rfl, ?_, fun _ _ _ _ h => h, ?_, fun id _ _ => congrFun hdisk id, fun _ hc => (by cases hc),
      fun k hk _ => ⟨k, List.mem_cons_of_mem _ hk, rfl, rfl, rfl⟩, fun _ => le_rfl, fun _ _ _ h => h⟩
    · intro g hg _
      refine ⟨hg, (hpage g).trans (Function.update_of_ne ?_ ..)⟩
      rintro rfl
      rw [hf] at hg
      cases hg
    · intro u _ id' _ hmark
      show (s.pool.pinResident id f).pageIoInflight id' = true
      rw [hio]
      exact hmark
  · rw [hpend]
    refine ((h.stored.setResident (p := { s.pool.pages f with pinCount := (s.pool.pages f).pinCount + 1 }) hf
      (h.stored.data id f hf) (h.stored.clean id f hf)).mono (howe.mono _ _) fun _ hp => hp).congr hpages hdisk hlen
  · intro k hk
    rcases List.mem_cons.1 hk with rfl | hk
    · exact hf
    · exact h.held k hk
  · intro id' g hg
    show ((s.pool.pinResident id f).pages g).pinCount = List.countP _ (⟨t, id, f, false⟩ :: s.pins)
    rw [hpage, List.countP_cons]
    by_cases hgf : g = f
    · subst hgf
      rw [Function.update_self, if_pos (by simp), ← h.pin id g hf]
    · rw [Function.update_of_ne hgf, if_neg (by simpa using Ne.symm hgf), h.pin id' g hg]
      rfl
  · refine .of_pc hself ?_ ?_ ?_ ?_ ?_ ?_ ?_
    · exact fun _ hc => (by cases hc)
    · exact fun _ hc => (by cases hc)
    · exact fun _ hc => (by cases hc)
    · exact fun _ hc => (by cases hc)
    · exact fun _ _ _ hc => (by cases hc)
    · intro id' g hk
      cases hk
      exact ⟨_, List.mem_cons_self, rfl, rfl, rfl⟩
    · intro id' b' hs
      cases hs
      exact hb
  · exact fun _ _ _ hc => (by cases hc)
  · exact fun _ _ _ hc => (by cases hc)

/-! ## Reserving a frame -/

/-- A pinned frame is not the one that is taken. -/
theorem Sound.held_ne (h : Sound s place ok owed) {m : BufferPool (Image α)} (ht : Taken s.pool place r m) {k : Pin}
    (hk : k ∈ s.pins) : k.frame ≠ r.frame := by
  intro hc
  have hkp := h.held k hk
  rw [hc] at hkp
  have h0 := ht.unpinned hkp
  rw [h.pin k.id r.frame hkp, List.countP_eq_zero] at h0
  exact h0 k hk (by simp [hc])

/-- A thread that goes on to write what it has taken leaves nothing without a writer. -/
theorem pending_of_taken (hlt : t < s.nthreads) (hpcw : (s.pc t).writes = none)
    (hpw : ∀ id, p.writes = some id ↔ r.writes id) {m : BufferPool (Image α)} (hid : s.Pending id ∨ r.writes id) :
    ((s.withPool m).goto t p).Pending id := by
  rcases hid with ⟨u, hu, hw⟩ | hw
  · refine ⟨u, hu, ?_⟩
    have hut : u ≠ t := by
      rintro rfl
      rw [hpcw] at hw
      cases hw
    show (Function.update s.pc t p u).writes = some id
    rw [Function.update_of_ne hut]
    exact hw
  · refine ⟨t, hlt, ?_⟩
    show (Function.update s.pc t p t).writes = some id
    rw [Function.update_self]
    exact (hpw id).2 hw

/-- The thread that reserves a frame, behind the step. -/
theorem ThreadOk.reserve (h : ThreadOk s place ok t) {m : BufferPool (Image α)} (hwf : Wf s.pool place)
    (ht : Taken s.pool place r m) (hdata : ∀ id, r.writes id → ok id (m.pages r.frame).data)
    (hpframe : p.frame = some r.frame) (hpw : ∀ id, p.writes = some id ↔ r.writes id)
    (hploads : p.loads = (s.pc t).loads) (hpmarks : p.marks = (s.pc t).marks) (hpkeeps : p.keeps = none)
    (hppub : ∀ id r b, p ≠ .publishing id r b) (hpsince : p.since = (s.pc t).since) :
    ThreadOk ((s.withPool m).goto t p) (Function.update place r.frame .reserved) ok t := by
  have hself : ((s.withPool m).goto t p).pc t = p := Function.update_self ..
  refine .of_pc hself ?_ ?_ ?_ ?_ ?_ ?_ ?_
  · rw [hpframe]
    rintro f ⟨⟩
    refine ⟨Function.update_self .., ?_⟩
    show (m.pages r.frame).pinCount = 1
    rw [ht.pages, Function.update_self]
  · rw [hpframe]
    intro id hw
    have hold := (ht.writes_iff ((hpw id).1 hw)).1
    refine ⟨?_, ?_⟩
    · intro f hf
      obtain ⟨hfr, hf⟩ := resident_of_update (fun _ hc => (by cases hc)) hf
      exact hfr (hwf.resident_inj hf hold)
    · rintro f ⟨⟩
      exact hdata id ((hpw id).1 hw)
  · rw [hploads]
    exact fun id hl => ht.away (h.loads id hl)
  · rw [hpmarks]
    intro id hm
    show m.pageIoInflight id = true
    rw [ht.pageIo]
    exact h.marks id hm
  · exact fun id r b hc => absurd hc (hppub id r b)
  · rw [hpkeeps]
    exact fun _ _ hc => (by cases hc)
  · rw [hpsince]
    exact h.since

/-- The thread reserves a frame and goes on to write what was there. -/
theorem Sound.reserve (h : Sound s place ok (owe s.pins)) (howe : OwedOk owe) (hlt : t < s.nthreads)
    {sh : Nat} {m : BufferPool (Image α)} (hr : s.pool.tryReserve sh = some (r, m))
    (hpcw : (s.pc t).writes = none) (hpframe : p.frame = some r.frame)
    (hpw : p.writes = if r.needFlush then r.oldPageId else none)
    (hploads : p.loads = (s.pc t).loads) (hpmarks : p.marks = (s.pc t).marks) (hpkeeps : p.keeps = none)
    (hppub : ∀ id r b, p ≠ .publishing id r b) (hpsince : p.since = (s.pc t).since) :
    Sound ((s.withPool m).goto t p) (Function.update place r.frame .reserved) ok (owe s.pins) := by
  have ht := h.wf.tryReserve hr
  have hwrites : ∀ id, p.writes = some id ↔ r.writes id := by
    intro id
    rw [hpw]
    unfold Reserved.writes
    cases r.needFlush with
    | true => simp
    | false => simp
  obtain ⟨hstored, hdata⟩ := h.stored.taken ht fun id hf => h.not_owed howe hf (ht.unpinned hf)
  refine h.of_effect (t := t) (p := p) ?_ hlt ht.wf
    (hstored.mono (fun _ ho => ho) fun _ => pending_of_taken hlt hpcw hwrites) ?_ ?_
    ((h.threads t).reserve h.wf ht hdata hpframe hwrites hploads hpmarks hpkeeps hppub hpsince) ?_ ?_
  · refine ⟨rfl, rfl, ?_, fun _ _ _ _ hid => ht.away hid, ?_, fun id _ _ => congrFun ht.disk id, ?_,
      fun k hk _ => ⟨k, hk, rfl, rfl, rfl⟩, fun _ => le_rfl, fun _ _ _ h => h⟩
    · intro g hg _
      have hne : g ≠ r.frame := by
        rintro rfl
        exact ht.not_reserved hg
      exact ⟨by rw [Function.update_of_ne hne]; exact hg, ht.pages_of_ne hne⟩
    · intro u _ id _ hm
      show m.pageIoInflight id = true
      rw [ht.pageIo]
      exact hm
    · intro id hw
      exact .inr ⟨r.frame, (ht.writes_iff ((hwrites id).1 hw)).1⟩
  · intro k hk
    rw [Function.update_of_ne (h.held_ne ht hk)]
    exact h.held k hk
  · intro id g hg
    obtain ⟨hgr, hg⟩ := resident_of_update (fun _ hc => (by cases hc)) hg
    show (m.pages g).pinCount = _
    rw [ht.pages_of_ne hgr]
    exact h.pin id g hg
  · intro u hut f hf hc
    rw [hpframe] at hf
    cases hf
    exact ht.not_reserved ((h.threads u).taken r.frame hc).1
  · intro u hut id hm hc
    rw [hpmarks] at hm
    exact hut (h.alone u t id hc hm)

/-! ## Writing, reading and entering a page -/

theorem Sound.write (h : Sound s place ok owed) (hlt : t < s.nthreads) (hframe : (s.pc t).frame = some r.frame)
    (hw : (s.pc t).writes = if r.needFlush then r.oldPageId else none) (hpframe : p.frame = some r.frame)
    (hpw : p.writes = none) (hploads : p.loads = (s.pc t).loads) (hpmarks : p.marks = (s.pc t).marks)
    (hpkeeps : p.keeps = none) (hppub : ∀ id r b, p ≠ .publishing id r b) (hpsince : p.since = (s.pc t).since) :
    Sound ((s.withPool (s.pool.writeOld r)).goto t p) place ok owed := by
  have hself : ((s.withPool (s.pool.writeOld r)).goto t p).pc t = p := Function.update_self ..
  have hwrites : ∀ id, r.writes id → (s.pc t).writes = some id := by
    rintro id ⟨hold, hflush⟩
    rw [hw, if_pos hflush]
    exact hold
  obtain ⟨hpages, hsize, htable, hlru, hfree, hio, -, -⟩ := writeOld_fields (m := s.pool) (r := r)
  refine h.of_effect (t := t) (p := p) ?_ hlt h.wf.writeOld ?_ h.held ?_ ?_ ?_ ?_
  · refine ⟨rfl, rfl, fun f hf _ => ⟨hf, congrFun hpages f⟩, fun _ _ _ _ h => h, ?_, ?_, ?_,
      fun k hk _ => ⟨k, hk, rfl, rfl, rfl⟩, fun _ => le_rfl, fun _ _ _ h => h⟩
    · intro u _ id _ hm
      show (s.pool.writeOld r).pageIoInflight id = true
      rw [hio]
      exact hm
    · intro id _ hnot
      exact writeOld_disk fun hc => hnot ⟨t, hlt, hwrites id hc⟩
    · intro id hc
      rw [hpw] at hc
      cases hc
  · refine Stored.writeOld (h.stored.mono (fun _ ho => ho) ?_) ?_
    · rintro id ⟨u, hu, huw⟩
      by_cases hut : u = t
      · subst hut
        right
        rw [hw] at huw
        cases hflush : r.needFlush with
        | false => simp [hflush] at huw
        | true =>
            rw [if_pos hflush] at huw
            exact ⟨huw, hflush⟩
      · left
        refine ⟨u, hu, ?_⟩
        show (Function.update s.pc t p u).writes = some id
        rw [Function.update_of_ne hut]
        exact huw
    · intro id hc
      exact ((h.threads t).writes id (hwrites id hc)).2 r.frame hframe
  · show ∀ id f, place f = .resident id → ((s.pool.writeOld r).pages f).pinCount = _
    rw [hpages]
    exact h.pin
  · refine .of_pc hself ?_ ?_ ?_ ?_ ?_ ?_ ?_
    · rw [hpframe]
      intro f hf
      obtain ⟨hp, hpin⟩ := (h.threads t).taken f (hframe.trans hf)
      exact ⟨hp, by show ((s.pool.writeOld r).pages f).pinCount = 1; rw [hpages]; exact hpin⟩
    · rw [hpw]
      exact fun _ hc => (by cases hc)
    · rw [hploads]
      exact (h.threads t).loads
    · rw [hpmarks]
      intro id hm
      show (s.pool.writeOld r).pageIoInflight id = true
      rw [hio]
      exact (h.threads t).marks id hm
    · exact fun id r b hc => absurd hc (hppub id r b)
    · rw [hpkeeps]
      exact fun _ _ hc => (by cases hc)
    · rw [hpsince]
      exact (h.threads t).since
  · intro u hut f hf hc
    rw [hpframe] at hf
    exact hut (h.apart u t f hc (hframe.trans hf))
  · intro u hut id hm hc
    rw [hpmarks] at hm
    exact hut (h.alone u t id hc hm)

theorem Sound.read (h : Sound s place ok owed) (hlt : t < s.nthreads) {b : Nat}
    (hpc : s.pc t = .reading id r b) (hcare : ¬ s.Pending id) :
    Sound ((s.withPool (s.pool.readInto r.frame id)).goto t (.publishing id r b)) place ok owed := by
  have hself : ((s.withPool (s.pool.readInto r.frame id)).goto t (.publishing id r b)).pc t = .publishing id r b :=
    Function.update_self ..
  have hpend : ((s.withPool (s.pool.readInto r.frame id)).goto t (.publishing id r b)).Pending = s.Pending :=
    pending_of_pc (p := .publishing id r b) rfl rfl (by rw [hpc]; rfl)
  obtain ⟨hres, hpin⟩ := (h.threads t).taken r.frame (by rw [hpc]; rfl)
  have hid := (h.threads t).loads id (by rw [hpc]; rfl)
  have hdisk : ok id (s.pool.disk id) := ((h.stored.away id hid).resolve_right hcare).1
  have hne : ∀ id' g, place g = .resident id' → g ≠ r.frame := by
    rintro id' g hg rfl
    rw [hres] at hg
    cases hg
  refine h.of_effect (t := t) (p := .publishing id r b) ?_ hlt ?_ ?_ h.held ?_ ?_ ?_ ?_
  · refine ⟨rfl, rfl, ?_, fun _ _ _ _ h => h, fun _ _ _ _ h => h, fun _ _ _ => rfl, fun _ hc => (by cases hc),
      fun k hk _ => ⟨k, hk, rfl, rfl, rfl⟩, fun _ => le_rfl, fun _ _ _ h => h⟩
    intro g hg hgt
    refine ⟨hg, Function.update_of_ne ?_ ..⟩
    rintro rfl
    exact hgt (by rw [hpc]; rfl)
  · exact h.wf.setPage rfl Iff.rfl
  · rw [hpend]
    exact h.stored.setTaken (fun id' hc => hne id' r.frame hc rfl) _
  · intro id' g hg
    show (Function.update s.pool.pages r.frame _ g).pinCount = _
    rw [Function.update_of_ne (hne id' g hg)]
    exact h.pin id' g hg
  · have hpage : (s.pool.readInto r.frame id).pages r.frame =
        { s.pool.pages r.frame with data := s.pool.disk id } := Function.update_self ..
    refine .of_pc hself ?_ ?_ ?_ ?_ ?_ ?_ ?_
    · rintro f ⟨⟩
      refine ⟨hres, ?_⟩
      show ((s.pool.readInto r.frame id).pages r.frame).pinCount = 1
      rw [hpage]
      exact hpin
    · exact fun _ hc => (by cases hc)
    · rintro id' ⟨⟩
      exact hid
    · rintro id' ⟨⟩
      exact (h.threads t).marks id (by rw [hpc]; rfl)
    · rw [hpend]
      rintro id' r' b' ⟨⟩
      refine ⟨?_, hdisk, hcare⟩
      show ok id ((s.pool.readInto r.frame id).pages r.frame).data
      rw [hpage]
      exact hdisk
    · exact fun _ _ hc => (by cases hc)
    · rintro id' b' ⟨⟩
      exact (h.threads t).since id b (by rw [hpc]; rfl)
  · rintro u hut f ⟨⟩ hc
    exact hut (h.apart u t r.frame hc (by rw [hpc]; rfl))
  · rintro u hut id' ⟨⟩ hc
    exact hut (h.alone u t id hc (by rw [hpc]; rfl))

/-- The read has thrown: the thread keeps its frame, and has nothing to write. -/
theorem Sound.throw (h : Sound s place ok owed) (hlt : t < s.nthreads) {b : Nat} (hpc : s.pc t = .reading id r b) :
    Sound (s.goto t (.throwing id r.frame b)) place ok owed := by
  have hself : (s.goto t (.throwing id r.frame b)).pc t = .throwing id r.frame b := Function.update_self ..
  have hpend : (s.goto t (.throwing id r.frame b)).Pending = s.Pending :=
    pending_of_pc (p := .throwing id r.frame b) rfl rfl (by rw [hpc]; rfl)
  have ht := h.threads t
  refine h.of_effect (t := t) (p := .throwing id r.frame b) ?_ hlt h.wf ?_ h.held h.pin ?_ ?_ ?_
  · exact ⟨rfl, rfl, fun g hg _ => ⟨hg, rfl⟩, fun _ _ _ _ h => h, fun _ _ _ _ h => h, fun _ _ _ => rfl,
      fun _ hc => (by cases hc), fun k hk _ => ⟨k, hk, rfl, rfl, rfl⟩, fun _ => le_rfl, fun _ _ _ h => h⟩
  · rw [hpend]
    exact h.stored
  · refine .of_pc hself ?_ ?_ ?_ ?_ ?_ ?_ ?_
    · rintro f ⟨⟩
      exact ht.taken r.frame (by rw [hpc]; rfl)
    · exact fun _ hc => (by cases hc)
    · rintro id' ⟨⟩
      exact ht.loads id (by rw [hpc]; rfl)
    · rintro id' ⟨⟩
      exact ht.marks id (by rw [hpc]; rfl)
    · exact fun _ _ _ hc => (by cases hc)
    · exact fun _ _ hc => (by cases hc)
    · rintro id' b' ⟨⟩
      exact ht.since id b (by rw [hpc]; rfl)
  · rintro u hut f ⟨⟩ hc
    exact hut (h.apart u t r.frame hc (by rw [hpc]; rfl))
  · rintro u hut id' ⟨⟩ hc
    exact hut (h.alone u t id hc (by rw [hpc]; rfl))

/-- The frame goes back to its free list. -/
theorem Sound.free (h : Sound s place ok owed) (hlt : t < s.nthreads) {b : Nat} (hpc : s.pc t = .throwing id f b) :
    Sound ((s.withPool (s.pool.freeFrame f)).goto t (.freed id f b)) (Function.update place f .free) ok owed := by
  have hself : ((s.withPool (s.pool.freeFrame f)).goto t (.freed id f b)).pc t = .freed id f b := Function.update_self ..
  have hpend : ((s.withPool (s.pool.freeFrame f)).goto t (.freed id f b)).Pending = s.Pending :=
    pending_of_pc (p := .freed id f b) rfl rfl (by rw [hpc]; rfl)
  have ht := h.threads t
  obtain ⟨hres, -⟩ := ht.taken f (by rw [hpc]; rfl)
  have hno : ∀ id', place f ≠ .resident id' := by
    intro id' hc
    rw [hres] at hc
    cases hc
  have hpages : ∀ g ≠ f, (s.pool.freeFrame f).pages g = s.pool.pages g := fun g hg => Function.update_of_ne hg ..
  have hback : ∀ id' g, Function.update place f .free g = .resident id' → g ≠ f ∧ place g = .resident id' :=
    fun _ _ hg => resident_of_update (fun _ hc => (by cases hc)) hg
  refine h.of_effect (t := t) (p := .freed id f b) ?_ hlt (h.wf.freeFrame hres) ?_ ?_ ?_ ?_ ?_ ?_
  · refine ⟨rfl, rfl, ?_, fun _ _ id' _ hid' g hg => hid' g (hback id' g hg).2, fun _ _ _ _ h => h, fun _ _ _ => rfl,
      fun _ hc => (by cases hc), fun k hk _ => ⟨k, hk, rfl, rfl, rfl⟩, fun _ => le_rfl, fun _ _ _ h => h⟩
    intro g hg hgt
    have hgf : g ≠ f := by
      rintro rfl
      exact hgt (by rw [hpc]; rfl)
    exact ⟨by rw [Function.update_of_ne hgf]; exact hg, hpages g hgf⟩
  · rw [hpend]
    exact h.stored.freeFrame hno
  · intro k hk
    have hkf : k.frame ≠ f := by
      intro hc
      exact hno k.id (hc ▸ h.held k hk)
    rw [Function.update_of_ne hkf]
    exact h.held k hk
  · intro id' g hg
    obtain ⟨hgf, hg⟩ := hback id' g hg
    show ((s.pool.freeFrame f).pages g).pinCount = _
    rw [hpages g hgf]
    exact h.pin id' g hg
  · refine .of_pc hself ?_ ?_ ?_ ?_ ?_ ?_ ?_
    · exact fun _ hc => (by cases hc)
    · exact fun _ hc => (by cases hc)
    · rintro id' ⟨⟩ g hg
      exact ht.loads id (by rw [hpc]; rfl) g (hback id g hg).2
    · rintro id' ⟨⟩
      exact ht.marks id (by rw [hpc]; rfl)
    · exact fun _ _ _ hc => (by cases hc)
    · exact fun _ _ hc => (by cases hc)
    · rintro id' b' ⟨⟩
      exact ht.since id b (by rw [hpc]; rfl)
  · exact fun _ _ _ hc => (by cases hc)
  · rintro u hut id' ⟨⟩ hc
    exact hut (h.alone u t id hc (by rw [hpc]; rfl))

/-- The thread enters page `id` in the frame it has reserved, with `q` in it. -/
theorem Sound.enter (h : Sound s place ok (owe s.pins)) (howe : OwedOk owe) (hlt : t < s.nthreads)
    (hframe : (s.pc t).frame = some f) (hpcw : (s.pc t).writes = none) {q : Page (Image α)}
    (hpgid : q.id = some id) (hpgpin : q.pinCount = 1) (hid : ∀ g, place g ≠ .resident id)
    (hdata : ok id q.data) (hdisk : ok id (s.pool.disk id)) (hnot : ¬ s.Pending id)
    (hload : ∀ u ≠ t, (s.pc u).loads ≠ some id) {m : BufferPool (Image α)}
    (hm : m = { s.pool.setPage f q with pageTable := s.pool.pageTable.insert id f })
    (hpframe : p.frame = none) (hpw : p.writes = none) (hploads : p.loads = none)
    (hpmarks : ∀ id, p.marks = some id → (s.pc t).marks = some id)
    (hpkeeps : ∀ x, p.keeps = some x → x = (id, f))
    (hpsince : ∀ x, p.since = some x → (s.pc t).since = some x) :
    Sound (((s.withPool m).addPin t id f).goto t p) (Function.update place f (.resident id)) ok
      (owe (⟨t, id, f, false⟩ :: s.pins)) := by
  subst hm
  obtain ⟨hres, -⟩ := (h.threads t).taken f hframe
  set m := { s.pool.setPage f q with pageTable := s.pool.pageTable.insert id f } with hm
  have hself : (((s.withPool m).addPin t id f).goto t p).pc t = p := Function.update_self ..
  have hpend : (((s.withPool m).addPin t id f).goto t p).Pending = s.Pending :=
    pending_of_pc rfl rfl (hpw.trans hpcw.symm)
  have hpage : ∀ g, g ≠ f → m.pages g = s.pool.pages g := fun g hg => Function.update_of_ne hg ..
  have hne : ∀ id' g, place g = .resident id' → g ≠ f := by
    rintro id' g hg rfl
    rw [hres] at hg
    cases hg
  have hnew : ∀ id' g, Function.update place f (.resident id) g = .resident id' →
      g = f ∧ id' = id ∨ g ≠ f ∧ place g = .resident id' := by
    intro id' g hg
    by_cases hgf : g = f
    · subst hgf
      rw [Function.update_self] at hg
      exact .inl ⟨rfl, (Place.resident.inj hg).symm⟩
    · rw [Function.update_of_ne hgf] at hg
      exact .inr ⟨hgf, hg⟩
  refine h.of_effect (t := t) (p := p) ?_ hlt ?_ ?_ ?_ ?_ ?_ ?_ ?_
  · refine ⟨rfl, rfl, ?_, ?_, fun _ _ _ _ h => h, fun _ _ _ => rfl, ?_,
      fun k hk _ => ⟨k, List.mem_cons_of_mem _ hk, rfl, rfl, rfl⟩, fun _ => le_rfl, fun _ _ _ h => h⟩
    · intro g hg hgt
      have hgf : g ≠ f := by
        rintro rfl
        exact hgt hframe
      exact ⟨by rw [Function.update_of_ne hgf]; exact hg, hpage g hgf⟩
    · intro u hut id' hu hid' g hg
      rcases hnew id' g hg with ⟨-, rfl⟩ | ⟨-, hg⟩
      · rcases hu with hu | hu
        · exact hload u hut hu
        · refine hnot ⟨u, h.lt_nthreads ?_, hu⟩
          intro hc
          rw [hc] at hu
          cases hu
      · exact hid' g hg
    · intro id' hc
      rw [hpw] at hc
      cases hc
  · exact h.wf.insert hres hid hpgid (by omega)
  · rw [hpend]
    exact (h.stored.insert hdata (fun _ => .inl ⟨hdisk, fun hc => hc.elim⟩) fun id' hc => hne id' f hc rfl).mono
      (howe.mono _ _) fun _ hp => hp
  · intro k hk
    rcases List.mem_cons.1 hk with rfl | hk
    · exact Function.update_self ..
    · rw [Function.update_of_ne (hne k.id k.frame (h.held k hk))]
      exact h.held k hk
  · intro id' g hg
    show (m.pages g).pinCount = List.countP _ (⟨t, id, f, false⟩ :: s.pins)
    rw [List.countP_cons]
    rcases hnew id' g hg with ⟨rfl, -⟩ | ⟨hgf, hg⟩
    · have hnone : s.pins.countP (fun k => k.frame = g) = 0 := by
        refine List.countP_eq_zero.2 fun k hk => ?_
        rw [decide_eq_true_eq]
        exact hne k.id k.frame (h.held k hk)
      have hpg : m.pages g = q := Function.update_self ..
      rw [hpg, hpgpin, hnone, if_pos (by simp)]
    · rw [hpage g hgf, if_neg (by simpa using Ne.symm hgf), h.pin id' g hg]
      rfl
  · refine .of_pc hself ?_ ?_ ?_ ?_ ?_ ?_ ?_
    · rw [hpframe]
      exact fun _ hc => (by cases hc)
    · rw [hpw]
      exact fun _ hc => (by cases hc)
    · rw [hploads]
      exact fun _ hc => (by cases hc)
    · exact fun id' hm' => (h.threads t).marks id' (hpmarks id' hm')
    · rintro id' r' b' rfl
      cases hpframe
    · intro id' g hk
      cases hpkeeps _ hk
      exact ⟨_, List.mem_cons_self, rfl, rfl, rfl⟩
    · exact fun id' b' hs => (h.threads t).since id' b' (hpsince _ hs)
  · intro u _ g hg
    rw [hpframe] at hg
    cases hg
  · intro u hut id' hm' hc
    exact hut (h.alone u t id' hc (hpmarks id' hm'))

/-! ## Steps of a call -/

/-- A move of a thread that says nothing new of marks and frames. -/
theorem Sound.move (h : Sound s place ok owed) (hlt : t < s.nthreads) (hframe : p.frame = none)
    (hwrites : p.writes = none) (hold : (s.pc t).writes = none) (hloads : p.loads = (s.pc t).loads)
    (hmarks : p.marks = (s.pc t).marks) (hkeeps : ∀ x, p.keeps = some x → (s.pc t).keeps = some x)
    (hsince : ∀ id b, p.since = some (id, b) → b ≤ s.unpinned id) : Sound (s.goto t p) place ok owed := by
  refine h.flags hlt (m := s.pool) rfl rfl rfl rfl rfl rfl rfl hframe hwrites hold ?_ hkeeps hsince
    (fun _ _ _ _ h => h) ?_
  · rw [hloads]
    exact (h.threads t).loads
  · rw [hmarks]
    exact fun id hm => ⟨(h.threads t).marks id hm, fun u hut hc => hut (h.alone u t id hc hm)⟩

/-- Taking away the mark of the page that the thread brought in. -/
theorem Sound.unmark (h : Sound s place ok owed) (hlt : t < s.nthreads) (hm : (s.pc t).marks = some id)
    (hframe : p.frame = none) (hwrites : p.writes = none) (hold : (s.pc t).writes = none)
    (hmarks : p.marks = none) (hkeeps : ∀ x, p.keeps = some x → (s.pc t).keeps = some x)
    (hsince : p.since = (s.pc t).since) :
    Sound ((s.withPool (s.pool.setPageIo id false)).goto t p) place ok owed := by
  refine h.flags hlt (m := s.pool.setPageIo id false) rfl rfl rfl rfl rfl rfl rfl hframe hwrites hold ?_ hkeeps
    ?_ ?_ ?_
  · intro id' hl
    rw [Pc.marks_of_loads hl] at hmarks
    cases hmarks
  · rw [hsince]
    exact (h.threads t).since
  · intro u hut id' hu hio
    show Function.update s.pool.pageIoInflight id false id' = true
    rw [Function.update_of_ne]
    · exact hio
    · rintro rfl
      exact hut (h.alone u t id' hu hm)
  · intro id' hc
    rw [hmarks] at hc
    cases hc

/-- A thread that has no frame, no mark and no page to bring in. -/
structure Pc.Bare (p : Pc) : Prop where
  frame : p.frame = none
  writes : p.writes = none
  marks : p.marks = none
  loads : p.loads = none
  keeps : p.keeps = none

/-- Such a thread goes on to where it has no more. -/
theorem Sound.goOn (h : Sound s place ok owed) (hlt : t < s.nthreads) (hfrom : (s.pc t).Bare) (hto : p.Bare)
    (hsince : ∀ id b, p.since = some (id, b) → b ≤ s.unpinned id) : Sound (s.goto t p) place ok owed := by
  refine h.move hlt hto.frame hto.writes hfrom.writes (hto.loads.trans hfrom.loads.symm)
    (hto.marks.trans hfrom.marks.symm) ?_ hsince
  intro x hx
  rw [hto.keeps] at hx
  cases hx

/-- Nobody has the mark, so nobody else brings the page in. -/
theorem Sound.claim (h : Sound s place ok owed) (hlt : t < s.nthreads) {b : Nat} (hpc : s.pc t = .claiming id b)
    (hio : ¬ s.pool.pageIoInflight id = true) (hl : s.pool.pageTable.lookup id = none) :
    Sound ((s.withPool (s.pool.setPageIo id true)).goto t (.reserving id 0 b)) place ok owed := by
  have hsince := (h.threads t).since
  rw [hpc] at hsince
  have hnone : ∀ u, (s.pc u).marks ≠ some id := fun u hc => hio ((h.threads u).marks id hc)
  refine h.flags hlt (m := s.pool.setPageIo id true) rfl rfl rfl rfl rfl rfl rfl rfl rfl
    (by rw [hpc]; rfl) ?_ (fun _ hc => (by cases hc)) hsince ?_ ?_
  · rintro id' ⟨⟩
    exact h.wf.lookup_none.1 hl
  · intro u _ id' _ hmark
    show Function.update s.pool.pageIoInflight id true id' = true
    by_cases hid : id' = id
    · rw [hid, Function.update_self]
    · rw [Function.update_of_ne hid]
      exact hmark
  · rintro id' ⟨⟩
    exact ⟨Function.update_self .., fun u _ => hnone u⟩

/-- What a step inside a call leads to. -/
def Onward (s s' : Threads α) (ok : PageId → Image α → Prop) (owe : List Pin → FrameId → Prop) : Prop :=
  (∃ place', Sound s' place' ok (owe s'.pins)) ∧
    s'.unpinned = s.unpinned ∧ s'.left = s.left ∧ s'.clock = s.clock

section Next

variable [Zero α]

theorem Sound.next_looping (h : Sound s place ok (owe s.pins)) (hlt : t < s.nthreads) {b : Nat}
    (hpc : s.pc t = .looping id b) (hstep : s.next t = some s') : Onward s s' ok owe := by
  have hsince := (h.threads t).since
  simp only [Threads.next, hpc] at hstep hsince
  split at hstep
  · cases hstep
  · cases hstep
    exact ⟨⟨place, h.goOn hlt (by rw [hpc]; exact ⟨rfl, rfl, rfl, rfl, rfl⟩) ⟨rfl, rfl, rfl, rfl, rfl⟩ hsince⟩,
      rfl, rfl, rfl⟩

theorem Sound.next_looking (h : Sound s place ok (owe s.pins)) (howe : OwedOk owe) (hlt : t < s.nthreads) {b : Nat}
    (hpc : s.pc t = .looking id b) (hstep : s.next t = some s') : Onward s s' ok owe := by
  have hsince := (h.threads t).since
  have hbare : (s.pc t).Bare := by
    rw [hpc]
    exact ⟨rfl, rfl, rfl, rfl, rfl⟩
  simp only [Threads.next, hpc] at hstep hsince
  split at hstep
  · cases hstep
    exact ⟨⟨place, h.goOn hlt hbare ⟨rfl, rfl, rfl, rfl, rfl⟩ hsince⟩, rfl, rfl, rfl⟩
  · next f hl =>
      split at hstep
      · next hpin =>
          cases hstep
          exact ⟨⟨place, h.hit howe hlt ((h.wf.table id f).1 hl) hbare.writes (hsince id b rfl)
            (pinResident_of_pinned hpin).symm⟩, rfl, rfl, rfl⟩
      · cases hstep
        exact ⟨⟨place, h.goOn hlt hbare ⟨rfl, rfl, rfl, rfl, rfl⟩ hsince⟩, rfl, rfl, rfl⟩

theorem Sound.next_pinning (h : Sound s place ok (owe s.pins)) (howe : OwedOk owe) (hlt : t < s.nthreads) {b : Nat}
    (hpc : s.pc t = .pinning id b) (hstep : s.next t = some s') : Onward s s' ok owe := by
  have hsince := (h.threads t).since
  have hbare : (s.pc t).Bare := by
    rw [hpc]
    exact ⟨rfl, rfl, rfl, rfl, rfl⟩
  simp only [Threads.next, hpc] at hstep hsince
  split at hstep
  · cases hstep
    exact ⟨⟨place, h.goOn hlt hbare ⟨rfl, rfl, rfl, rfl, rfl⟩ hsince⟩, rfl, rfl, rfl⟩
  · next f hl =>
      split at hstep
      · cases hstep
        exact ⟨⟨place, h.goOn hlt hbare ⟨rfl, rfl, rfl, rfl, rfl⟩ hsince⟩, rfl, rfl, rfl⟩
      · split at hstep
        · cases hstep
          exact ⟨⟨place, h.goOn hlt hbare ⟨rfl, rfl, rfl, rfl, rfl⟩ hsince⟩, rfl, rfl, rfl⟩
        · cases hstep
          exact ⟨⟨place, h.hit howe hlt ((h.wf.table id f).1 hl) hbare.writes (hsince id b rfl) rfl⟩, rfl, rfl, rfl⟩

theorem Sound.next_waiting (h : Sound s place ok (owe s.pins)) (hlt : t < s.nthreads) {b : Nat}
    (hpc : s.pc t = .waiting id f b) (hstep : s.next t = some s') : Onward s s' ok owe := by
  have hsince := (h.threads t).since
  simp only [Threads.next, hpc] at hstep hsince
  split at hstep
  · cases hstep
  · cases hstep
    exact ⟨⟨place, h.goOn hlt (by rw [hpc]; exact ⟨rfl, rfl, rfl, rfl, rfl⟩) ⟨rfl, rfl, rfl, rfl, rfl⟩ hsince⟩,
      rfl, rfl, rfl⟩

theorem Sound.next_claiming (h : Sound s place ok (owe s.pins)) (hlt : t < s.nthreads) {b : Nat}
    (hpc : s.pc t = .claiming id b) (hstep : s.next t = some s') : Onward s s' ok owe := by
  have hsince := (h.threads t).since
  have hbare : (s.pc t).Bare := by
    rw [hpc]
    exact ⟨rfl, rfl, rfl, rfl, rfl⟩
  simp only [Threads.next, hpc] at hstep hsince
  split at hstep
  · cases hstep
    exact ⟨⟨place, h.goOn hlt hbare ⟨rfl, rfl, rfl, rfl, rfl⟩ hsince⟩, rfl, rfl, rfl⟩
  · next hio =>
      split at hstep
      · cases hstep
        exact ⟨⟨place, h.goOn hlt hbare ⟨rfl, rfl, rfl, rfl, rfl⟩ hsince⟩, rfl, rfl, rfl⟩
      · next hl =>
          cases hstep
          exact ⟨⟨place, h.claim hlt hpc hio (not_not.1 hl)⟩, rfl, rfl, rfl⟩

theorem Sound.next_reserving (h : Sound s place ok (owe s.pins)) (howe : OwedOk owe) (hlt : t < s.nthreads) {k b : Nat}
    (hpc : s.pc t = .reserving id k b) (hstep : s.next t = some s') : Onward s s' ok owe := by
  have hsince := (h.threads t).since
  have hmove : ∀ q : Pc, q.frame = none → q.writes = none → q.marks = some id → q.loads = some id → q.keeps = none →
      q.since = some (id, b) → Sound (s.goto t q) place ok (owe s.pins) := by
    intro q hf hw hm hl hk hs
    rw [hpc] at hsince
    refine h.move hlt hf hw (by rw [hpc]; rfl) (by rw [hl, hpc]; rfl) (by rw [hm, hpc]; rfl) ?_ ?_
    · rw [hk]
      exact fun _ hc => (by cases hc)
    · rw [hs]
      exact hsince
  simp only [Threads.next, hpc] at hstep
  split at hstep
  · cases hstep
    exact ⟨⟨place, hmove _ rfl rfl rfl rfl rfl rfl⟩, rfl, rfl, rfl⟩
  · split at hstep
    · cases hstep
      exact ⟨⟨place, hmove _ rfl rfl rfl rfl rfl rfl⟩, rfl, rfl, rfl⟩
    · next r m hr =>
        cases hstep
        exact ⟨⟨_, h.reserve howe hlt hr (by rw [hpc]; rfl) rfl rfl (by rw [hpc]; rfl) (by rw [hpc]; rfl) rfl
          (fun _ _ _ hc => (by cases hc)) (by rw [hpc]; rfl)⟩, rfl, rfl, rfl⟩

/-- The page that was read goes into the table. -/
theorem Sound.next_publishing (h : Sound s place ok (owe s.pins)) (howe : OwedOk owe) (hlt : t < s.nthreads) {b : Nat}
    (hpc : s.pc t = .publishing id r b) (hstep : s.next t = some s') : Onward s s' ok owe := by
  obtain ⟨hdata, hdisk, hnot⟩ := (h.threads t).loaded id r b hpc
  obtain ⟨-, hpin⟩ := (h.threads t).taken r.frame (by rw [hpc]; rfl)
  simp only [Threads.next, hpc] at hstep
  cases hstep
  refine ⟨⟨_, h.enter (f := r.frame) howe hlt (by rw [hpc]; rfl) (by rw [hpc]; rfl)
    (q := { s.pool.pages r.frame with id := some id, isDirty := false }) rfl hpin
    ((h.threads t).loads id (by rw [hpc]; rfl)) hdata hdisk hnot ?_ rfl rfl rfl rfl ?_ ?_ ?_⟩, rfl, rfl, rfl⟩
  · intro u hut hc
    exact hut (h.alone u t id (Pc.marks_of_loads hc) (by rw [hpc]; rfl))
  · rintro id' ⟨⟩
    rw [hpc]
    rfl
  · rintro x ⟨⟩
    rfl
  · rintro x ⟨⟩
    rw [hpc]
    rfl

theorem Sound.next_leaving (h : Sound s place ok (owe s.pins)) (hlt : t < s.nthreads) {b : Nat}
    (hpc : s.pc t = .leaving id f b) (hstep : s.next t = some s') : Onward s s' ok owe := by
  have hsince := (h.threads t).since
  simp only [Threads.next, hpc] at hstep hsince
  cases hstep
  refine ⟨⟨place, h.flags hlt (m := s.pool.setFrameIo f false) rfl rfl rfl rfl rfl rfl rfl rfl rfl (by rw [hpc]; rfl)
    (fun _ hc => (by cases hc)) (fun x hx => by rw [hpc]; exact hx) hsince (fun _ _ _ _ h => h)
    (fun _ hc => (by cases hc))⟩, rfl, rfl, rfl⟩

/-- Another thread may have taken the frame in the meantime: its mark says nothing. -/
theorem Sound.next_freed (h : Sound s place ok (owe s.pins)) (hlt : t < s.nthreads) {b : Nat}
    (hpc : s.pc t = .freed id f b) (hstep : s.next t = some s') : Onward s s' ok owe := by
  have ht := h.threads t
  simp only [Threads.next, hpc] at hstep
  cases hstep
  refine ⟨⟨place, h.flags hlt (m := s.pool.setFrameIo f false) rfl rfl rfl rfl rfl rfl rfl rfl rfl (by rw [hpc]; rfl)
    ?_ (fun _ hc => (by cases hc)) ?_ (fun _ _ _ _ h => h) ?_⟩, rfl, rfl, rfl⟩
  · rintro id' ⟨⟩
    exact ht.loads id (by rw [hpc]; rfl)
  · rintro id' b' ⟨⟩
    exact ht.since id b (by rw [hpc]; rfl)
  · rintro id' ⟨⟩
    exact ⟨ht.marks id (by rw [hpc]; rfl), fun u hut hc => hut (h.alone u t id hc (by rw [hpc]; rfl))⟩

theorem Sound.next_newReserving (h : Sound s place ok (owe s.pins)) (howe : OwedOk owe) (hlt : t < s.nthreads) {k : Nat}
    (hpc : s.pc t = .newReserving id k) (hstep : s.next t = some s') : Onward s s' ok owe := by
  have hbare : (s.pc t).Bare := by
    rw [hpc]
    exact ⟨rfl, rfl, rfl, rfl, rfl⟩
  simp only [Threads.next, hpc] at hstep
  split at hstep
  · cases hstep
    exact ⟨⟨place, h.goOn hlt hbare ⟨rfl, rfl, rfl, rfl, rfl⟩ fun _ _ hc => (by cases hc)⟩, rfl, rfl, rfl⟩
  · split at hstep
    · cases hstep
      exact ⟨⟨place, h.goOn hlt hbare ⟨rfl, rfl, rfl, rfl, rfl⟩ fun _ _ hc => (by cases hc)⟩, rfl, rfl, rfl⟩
    · next r m hr =>
        cases hstep
        exact ⟨⟨_, h.reserve howe hlt hr hbare.writes rfl rfl (by rw [hpc]; rfl) (by rw [hpc]; rfl) rfl
          (fun _ _ _ hc => (by cases hc)) (by rw [hpc]; rfl)⟩, rfl, rfl, rfl⟩

/-- The new page goes into the table, where nobody else has it. -/
theorem Sound.next_newPublishing (h : Sound s place ok (owe s.pins)) (howe : OwedOk owe)
    (h0 : ∀ id ∈ (s.pc t).makes, ok id 0) (hlt : t < s.nthreads) (hcare : Careful s (t, .next))
    (hpc : s.pc t = .newPublishing id r) (hstep : s.next t = some s') : Onward s s' ok owe := by
  obtain ⟨hl, hio, hnot, -⟩ := (hcare rfl).2 id (by rw [hpc]; rfl)
  have hid := h.wf.lookup_none.1 hl
  have hdisk : ok id (s.pool.disk id) := ((h.stored.away id hid).resolve_right hnot).1
  simp only [Threads.next, hpc] at hstep
  cases hstep
  refine ⟨⟨_, h.enter (f := r.frame) howe hlt (by rw [hpc]; rfl) (by rw [hpc]; rfl)
    (q := ⟨some id, 0, false, 1⟩) rfl rfl hid (h0 id (by rw [hpc]; rfl)) hdisk hnot
    ?_ rfl rfl rfl rfl (fun _ hc => (by cases hc)) (fun _ hc => (by cases hc)) (fun _ hc => (by cases hc))⟩,
    rfl, rfl, rfl⟩
  intro u _ hc
  have hmark := (h.threads u).marks id (Pc.marks_of_loads hc)
  rw [hio] at hmark
  cases hmark

theorem Sound.next_newLeaving (h : Sound s place ok (owe s.pins)) (hlt : t < s.nthreads)
    (hpc : s.pc t = .newLeaving id f) (hstep : s.next t = some s') : Onward s s' ok owe := by
  simp only [Threads.next, hpc] at hstep
  cases hstep
  refine ⟨⟨place, h.flags hlt (m := s.pool.setFrameIo f false) rfl rfl rfl rfl rfl rfl rfl rfl rfl (by rw [hpc]; rfl)
    (fun _ hc => (by cases hc)) (fun _ hc => (by cases hc)) (fun _ _ hc => (by cases hc)) (fun _ _ _ _ h => h)
    (fun _ hc => (by cases hc))⟩, rfl, rfl, rfl⟩

/-- Each step inside a call, by where the thread stands. -/
theorem Sound.next (h : Sound s place ok (owe s.pins)) (howe : OwedOk owe)
    (h0 : ∀ id ∈ (s.pc t).makes, ok id 0) (hlt : t < s.nthreads) (hcare : Careful s (t, .next))
    (hstep : s.next t = some s') :
    (∃ place', Sound s' place' ok (owe s'.pins)) ∧
      s'.unpinned = s.unpinned ∧ s'.left = s.left ∧ s'.clock = s.clock := by
  cases hpc : s.pc t with
  | idle => simp [Threads.next, hpc] at hstep
  | fetched id f b => simp [Threads.next, hpc] at hstep
  | looping id b => exact h.next_looping hlt hpc hstep
  | looking id b => exact h.next_looking howe hlt hpc hstep
  | pinning id b => exact h.next_pinning howe hlt hpc hstep
  | waiting id f b => exact h.next_waiting hlt hpc hstep
  | claiming id b => exact h.next_claiming hlt hpc hstep
  | reserving id k b => exact h.next_reserving howe hlt hpc hstep
  | failing id b =>
      simp only [Threads.next, hpc] at hstep
      cases hstep
      exact ⟨⟨place, h.unmark hlt (by rw [hpc]; rfl) rfl rfl (by rw [hpc]; rfl) rfl
        (fun _ hc => (by cases hc)) (by rw [hpc]; rfl)⟩, rfl, rfl, rfl⟩
  | writing id r b =>
      simp only [Threads.next, hpc] at hstep
      cases hstep
      exact ⟨⟨place, h.write hlt (by rw [hpc]; rfl) (by rw [hpc]; rfl) rfl rfl (by rw [hpc]; rfl)
        (by rw [hpc]; rfl) rfl (fun _ _ _ hc => (by cases hc)) (by rw [hpc]; rfl)⟩, rfl, rfl, rfl⟩
  | reading id r b =>
      simp only [Threads.next, hpc] at hstep
      split at hstep
      · cases hstep
        exact ⟨⟨place, h.read hlt hpc ((hcare rfl).1 id (by rw [hpc]; rfl))⟩, rfl, rfl, rfl⟩
      · cases hstep
        exact ⟨⟨place, h.throw hlt hpc⟩, rfl, rfl, rfl⟩
  | throwing id f b =>
      simp only [Threads.next, hpc] at hstep
      cases hstep
      exact ⟨⟨_, h.free hlt hpc⟩, rfl, rfl, rfl⟩
  | freed id f b => exact h.next_freed hlt hpc hstep
  | publishing id r b => exact h.next_publishing howe hlt hpc hstep
  | ending id f b =>
      simp only [Threads.next, hpc] at hstep
      cases hstep
      exact ⟨⟨place, h.unmark hlt (by rw [hpc]; rfl) rfl rfl (by rw [hpc]; rfl) rfl
        (fun x hx => by rw [hpc]; exact hx) (by rw [hpc]; rfl)⟩, rfl, rfl, rfl⟩
  | leaving id f b => exact h.next_leaving hlt hpc hstep
  | newReserving id k => exact h.next_newReserving howe hlt hpc hstep
  | newWriting id r =>
      simp only [Threads.next, hpc] at hstep
      cases hstep
      exact ⟨⟨place, h.write hlt (by rw [hpc]; rfl) (by rw [hpc]; rfl) rfl rfl (by rw [hpc]; rfl)
        (by rw [hpc]; rfl) rfl (fun _ _ _ hc => (by cases hc)) (by rw [hpc]; rfl)⟩, rfl, rfl, rfl⟩
  | newPublishing id r => exact h.next_newPublishing howe h0 hlt hcare hpc hstep
  | newLeaving id f => exact h.next_newLeaving hlt hpc hstep

end Next

/-! ## Calls -/

theorem Pc.of_outside (h : p.outside = true) : p.frame = none ∧ p.writes = none ∧ p.loads = none ∧ p.marks = none ∧
    ∀ id r b, p ≠ .publishing id r b := by
  cases p with
  | idle => exact ⟨rfl, rfl, rfl, rfl, fun _ _ _ hc => (by cases hc)⟩
  | fetched id f b => exact ⟨rfl, rfl, rfl, rfl, fun _ _ _ hc => (by cases hc)⟩
  | _ => cases h

theorem Sound.fetch (h : Sound s place ok owed) (hlt : t < s.nthreads) (hout : (s.pc t).outside = true) (id : PageId) :
    Sound (s.goto t (.looping id (s.unpinned id))) place ok owed := by
  obtain ⟨-, hw, hl, hm, -⟩ := Pc.of_outside hout
  refine h.move hlt rfl rfl hw hl.symm hm.symm (fun _ hc => (by cases hc)) ?_
  rintro id' b ⟨⟩
  exact le_rfl

theorem Sound.newPage (h : Sound s place ok owed) (hlt : t < s.nthreads) (hout : (s.pc t).outside = true) (fd : Nat)
    (id : PageId) : Sound ((s.withPool (s.pool.allocatePage fd)).goto t (.newReserving id 0)) place ok owed := by
  obtain ⟨-, hw, -⟩ := Pc.of_outside hout
  exact h.flags hlt (m := s.pool.allocatePage fd) rfl rfl rfl rfl rfl rfl rfl rfl rfl hw (fun _ hc => (by cases hc))
    (fun _ hc => (by cases hc)) (fun _ _ hc => (by cases hc)) (fun _ _ _ _ h => h) (fun _ hc => (by cases hc))

theorem Threads.find_spec {k : Pin} (h : s.find t id = some k) : k ∈ s.pins ∧ k.thread = t ∧ k.id = id := by
  have h' : s.pins.find? (fun k => k.thread = t ∧ k.id = id) = some k := h
  exact ⟨List.mem_of_find?_eq_some h', by simpa using List.find?_some h'⟩

/-- What `changeAt` and the marking of pins leave of each pin. -/
theorem Threads.mem_changeAt {k k' : Pin} {c : α} (hk' : k' ∈ (s.changeAt t k c).pins) :
    ∃ k1 ∈ s.pins, k'.thread = k1.thread ∧ k'.id = k1.id ∧ k'.frame = k1.frame := by
  obtain ⟨k1, hk1, rfl⟩ := List.mem_map.1 hk'
  refine ⟨k1, hk1, ?_⟩
  split <;> exact ⟨rfl, rfl, rfl⟩

theorem Threads.changeAt_mem {k k1 : Pin} {c : α} (hk1 : k1 ∈ s.pins) :
    ∃ k' ∈ (s.changeAt t k c).pins, k'.thread = k1.thread ∧ k'.id = k1.id ∧ k'.frame = k1.frame := by
  refine ⟨_, List.mem_map.2 ⟨k1, hk1, rfl⟩, ?_⟩
  split <;> exact ⟨rfl, rfl, rfl⟩

/-- A holder writes into its frame, and the contents will do in a sense `ok'` then. -/
theorem Sound.change (h : Sound s place ok owed) (hlt : t < s.nthreads) (hout : (s.pc t).outside = true) {k : Pin}
    (hk : k ∈ s.pins) (c : α) (hstored : Stored (s.changeAt t k c).pool place ok' (fun _ => False) owed' (s.changeAt t k c).Pending)
    (hgood : ∀ id c, (∀ f, place f ≠ .resident id) → ok id c → ok' id c) :
    Sound (s.changeAt t k c) place ok' owed' := by
  obtain ⟨hf, hw, hl, hm, hp⟩ := Pc.of_outside hout
  have hkp := h.held k hk
  have hpage : ∀ g, g ≠ k.frame → (s.changeAt t k c).pool.pages g = s.pool.pages g := fun g hg =>
    Function.update_of_ne hg ..
  refine h.of_effect (t := t) (p := s.pc t) ?_ hlt (h.wf.setPage rfl Iff.rfl) hstored ?_ ?_ ?_ ?_ ?_
  · refine ⟨(Function.update_eq_self ..).symm, rfl, ?_, fun _ _ _ _ h => h, fun _ _ _ _ h => h, fun _ _ _ => rfl,
      fun _ hc => .inl hc, fun k1 hk1 _ => Threads.changeAt_mem hk1, fun _ => le_rfl, hgood⟩
    intro g hg _
    refine ⟨hg, hpage g ?_⟩
    rintro rfl
    rw [hkp] at hg
    cases hg
  · intro k' hk'
    obtain ⟨k1, hk1, -, hid, hfr⟩ := Threads.mem_changeAt hk'
    rw [hid, hfr]
    exact h.held k1 hk1
  · intro id g hg
    have hcount : (s.changeAt t k c).pins.countP (fun k' => k'.frame = g) = s.pins.countP fun k' => k'.frame = g := by
      show List.countP _ (List.map _ s.pins) = _
      rw [List.countP_map]
      congr 1
      funext k'
      show decide ((if k'.thread = t ∧ k'.id = k.id then { k' with changed := true } else k').frame = g) = _
      split <;> rfl
    rw [hcount, ← h.pin id g hg]
    by_cases hgk : g = k.frame
    · subst hgk
      show (Function.update s.pool.pages k.frame _ k.frame).pinCount = _
      rw [Function.update_self]
    · rw [hpage g hgk]
  · have hpc : (s.changeAt t k c).pc t = s.pc t := rfl
    refine ⟨?_, ?_, ?_, ?_, ?_, ?_, (h.threads t).since⟩
    · rw [hpc, hf]
      exact fun _ hc => (by cases hc)
    · rw [hpc, hw]
      exact fun _ hc => (by cases hc)
    · rw [hpc, hl]
      exact fun _ hc => (by cases hc)
    · rw [hpc, hm]
      exact fun _ hc => (by cases hc)
    · exact fun id r b hc => absurd hc (hp id r b)
    · intro id g hkeeps
      obtain ⟨k1, hk1, rfl, rfl, rfl⟩ := (h.threads t).keeps id g hkeeps
      exact Threads.changeAt_mem hk1
  · rw [hf]
    exact fun _ _ _ hc => (by cases hc)
  · rw [hm]
    exact fun _ _ _ hc => (by cases hc)

/-- `unpin_page` of a page that is there. -/
theorem unpinPage_resident {m : BufferPool α} (h : Wf m place) (hf : place f = .resident id) (d : Bool) :
    Wf (m.unpinPage id d).2 place ∧ (m.unpinPage id d).2.pages = Function.update m.pages f
        { m.pages f with isDirty := (m.pages f).isDirty || d, pinCount := (m.pages f).pinCount - 1 } ∧
      (m.unpinPage id d).2.disk = m.disk ∧ (m.unpinPage id d).2.pageIoInflight = m.pageIoInflight := by
  have heq : m.unpinPage id d = (m.markDirty f d).dropPin id f := by
    unfold BufferPool.unpinPage
    rw [(h.table id f).2 hf]
  have hmark : Wf (m.markDirty f d) place := h.setPage rfl Iff.rfl
  obtain ⟨hdisk, -, hio, -⟩ := dropPin_fields (m.markDirty f d) id f
  rw [heq]
  refine ⟨hmark.dropPin hf, ?_, hdisk, hio⟩
  rw [dropPin_pages]
  have hpage : (m.markDirty f d).pages f = { m.pages f with isDirty := (m.pages f).isDirty || d } :=
    Function.update_self ..
  rw [hpage]
  exact Function.update_idem ..

/-- The pins before and after one is given back. -/
theorem Threads.unpinAt_pins {k : Pin} (hfind : s.find t id = some k) (d : Bool) :
    ∃ as bs, s.pins = as ++ k :: bs ∧ (s.unpinAt t k d).pins = as ++ bs := by
  obtain ⟨-, -, rfl⟩ := Threads.find_spec hfind
  obtain ⟨hk, as, bs, hsplit, has⟩ :=
    List.find?_eq_some_iff_append.1 (show s.pins.find? (fun k' => k'.thread = t ∧ k'.id = k.id) = some k from hfind)
  refine ⟨as, bs, hsplit, ?_⟩
  show s.pins.eraseP _ = _
  rw [hsplit, List.eraseP_append_right, List.eraseP_cons_of_pos (by simpa using hk)]
  intro b hb hc
  have := has b hb
  rw [hc] at this
  cases this

/-- A holder unpins its page, and the contents will do in a sense `ok'` then. -/
theorem Sound.unpin (h : Sound s place ok owed) (hlt : t < s.nthreads) (hout : (s.pc t).outside = true) {k : Pin}
    (hfind : s.find t id = some k) (d : Bool)
    (hstored : Stored (s.unpinAt t k d).pool place ok' (fun _ => False) owed' s.Pending)
    (hunpinned : d = true → s.unpinned k.id ≤ (s.pool.pages k.frame).data.stamp)
    (hgood : ∀ id c, (∀ f, place f ≠ .resident id) → ok id c → ok' id c) :
    Sound ((s.unpinAt t k d).goto t .idle) place ok' owed' := by
  obtain ⟨hf, hw, hl, hm, hp⟩ := Pc.of_outside hout
  obtain ⟨hk, hkt, rfl⟩ := Threads.find_spec hfind
  have hkp := h.held k hk
  obtain ⟨hwf, hpages, hdisk, hio⟩ := unpinPage_resident h.wf hkp d
  have hself : ((s.unpinAt t k d).goto t .idle).pc t = .idle := Function.update_self ..
  have hpend : ((s.unpinAt t k d).goto t .idle).Pending = s.Pending := pending_of_pc (p := .idle) rfl rfl hw.symm
  have hpage : ∀ g, g ≠ k.frame → (s.unpinAt t k d).pool.pages g = s.pool.pages g := by
    intro g hg
    show (s.pool.unpinPage k.id d).2.pages g = _
    rw [hpages, Function.update_of_ne hg]
  obtain ⟨as, bs, hsplit, herase⟩ := Threads.unpinAt_pins hfind d
  have hsub : ∀ k' ∈ (s.unpinAt t k d).pins, k' ∈ s.pins := by
    rw [herase, hsplit]
    intro k' hk'
    rcases List.mem_append.1 hk' with hk' | hk'
    · exact List.mem_append_left _ hk'
    · exact List.mem_append_right _ (List.mem_cons_of_mem _ hk')
  refine h.of_effect (t := t) (p := .idle) ?_ hlt hwf ?_ (fun k' hk' => h.held k' (hsub k' hk')) ?_ ?_ ?_ ?_
  · refine ⟨rfl, rfl, ?_, fun _ _ _ _ h => h, ?_, fun _ _ _ => congrFun hdisk _, fun _ hc => (by cases hc), ?_, ?_,
      hgood⟩
    · intro g hg _
      refine ⟨hg, hpage g ?_⟩
      rintro rfl
      rw [hkp] at hg
      cases hg
    · intro u _ id' _ hmark
      show (s.pool.unpinPage k.id d).2.pageIoInflight id' = true
      rw [hio]
      exact hmark
    · intro k' hk' hkt'
      refine ⟨k', ?_, rfl, rfl, rfl⟩
      show k' ∈ (s.unpinAt t k d).pins
      rw [hsplit] at hk'
      rw [herase]
      rcases List.mem_append.1 hk' with hk' | hk'
      · exact List.mem_append_left _ hk'
      · rcases List.mem_cons.1 hk' with rfl | hk'
        · exact absurd hkt hkt'
        · exact List.mem_append_right _ hk'
    · intro id'
      show s.unpinned id' ≤ (if d = true then Function.update s.unpinned k.id _ else s.unpinned) id'
      split
      · next hd =>
          by_cases hid : id' = k.id
          · subst hid
            rw [Function.update_self]
            exact hunpinned hd
          · rw [Function.update_of_ne hid]
      · exact le_rfl
  · rw [hpend]
    exact hstored
  · intro id' g hg
    have hcount : s.pins.countP (fun k' => k'.frame = g) =
        (s.unpinAt t k d).pins.countP (fun k' => k'.frame = g) + if k.frame = g then 1 else 0 := by
      rw [herase, hsplit, List.countP_append, List.countP_append, List.countP_cons]
      simp only [decide_eq_true_eq]
      omega
    have hold := h.pin id' g hg
    rw [hcount] at hold
    show ((s.pool.unpinPage k.id d).2.pages g).pinCount = (s.unpinAt t k d).pins.countP fun k' => k'.frame = g
    rw [hpages]
    by_cases hgk : g = k.frame
    · subst hgk
      rw [if_pos rfl] at hold
      rw [Function.update_self]
      show (s.pool.pages k.frame).pinCount - 1 = _
      rw [hold, Nat.add_sub_cancel]
    · rw [if_neg fun hc => hgk hc.symm] at hold
      rw [Function.update_of_ne hgk]
      exact hold
  · refine .of_pc hself ?_ ?_ ?_ ?_ ?_ ?_ ?_
    · exact fun _ hc => (by cases hc)
    · exact fun _ hc => (by cases hc)
    · exact fun _ hc => (by cases hc)
    · exact fun _ hc => (by cases hc)
    · exact fun _ _ _ hc => (by cases hc)
    · exact fun _ _ hc => (by cases hc)
    · exact fun _ _ hc => (by cases hc)
  · exact fun _ _ _ hc => (by cases hc)
  · exact fun _ _ _ hc => (by cases hc)

/-! ## Steps of no thread -/

/-- The pool is changed behind the threads: contents and pins stay, and what the disk has still will do. -/
theorem Sound.background (h : Sound s place ok owed) {m : BufferPool (Image α)} (hwf : Wf m place)
    (hstored : Stored m place ok (fun _ => False) owed s.Pending) (hdata : ∀ f, (m.pages f).data = (s.pool.pages f).data)
    (hpin : ∀ f, (m.pages f).pinCount = (s.pool.pages f).pinCount)
    (hio : m.pageIoInflight = s.pool.pageIoInflight) (hdisk : ∀ id, ok id (s.pool.disk id) → ok id (m.disk id)) :
    Sound (s.withPool m) place ok owed := by
  refine ⟨hwf, hstored, h.held, fun id f hf => (hpin f).trans (h.pin id f hf), fun t => ?_, h.apart, h.alone, h.idle⟩
  have ht := h.threads t
  refine ⟨?_, ?_, ht.loads, ?_, ?_, ht.keeps, ht.since⟩
  · intro f hf
    exact ⟨(ht.taken f hf).1, (hpin f).trans (ht.taken f hf).2⟩
  · intro id hw
    refine ⟨(ht.writes id hw).1, fun f hf => ?_⟩
    show ok id (m.pages f).data
    rw [hdata]
    exact (ht.writes id hw).2 f hf
  · intro id hm
    show m.pageIoInflight id = true
    rw [hio]
    exact ht.marks id hm
  · intro id r b hp
    obtain ⟨h1, h2, h3⟩ := ht.loaded id r b hp
    refine ⟨?_, hdisk id h2, h3⟩
    show ok id (m.pages r.frame).data
    rw [hdata]
    exact h1

end Rmdb.Buffer
