import Rmdb.Buffer.Pool

/-!
# Where the frames are

Each frame of the pool is in one place: on a free list, under the key of a page, or taken by a
call under way.  `Wf` says that the free lists, the page tables and the replacers agree with a
map from frames to places, and the lemmas say what each section does to the map.
-/

namespace Rmdb.Buffer

inductive Place where
  | outside
  | free
  | resident (id : PageId)
  | reserved
deriving DecidableEq

variable {α : Type} {m m' : BufferPool α} {place : FrameId → Place} {id : PageId} {f : FrameId} {s : Nat}

structure Wf (m : BufferPool α) (place : FrameId → Place) : Prop where
  size : ∀ f, f < m.poolSize ↔ place f ≠ .outside
  free : ∀ s f, f ∈ m.freeFrames s ↔ place f = .free ∧ f % nshards = s
  free_nodup : ∀ s, (m.freeFrames s).Nodup
  table : ∀ id f, m.pageTable.lookup id = some f ↔ place f = .resident id
  ident : ∀ id f, place f = .resident id → (m.pages f).id = some id
  lru : ∀ s f, f ∈ m.replacer s ↔
    ∃ id, place f = .resident id ∧ shardOfPage id = s ∧ (m.pages f).pinCount = 0
  lru_nodup : ∀ s, (m.replacer s).Nodup

theorem Wf.start [Zero α] (n : Nat) (disk : PageId → α) (len no : Nat → Nat) :
    Wf (start n disk len no) fun f => if f < n then .free else .outside where
  size f := by
    show f < n ↔ _
    split
    · simp [*]
    · simp [*]
  free s f := by
    show f ∈ (List.range n).filter (fun f => f % nshards = s) ↔ _
    rw [List.mem_filter, List.mem_range, decide_eq_true_eq]
    split
    · simp [*]
    · simp [*]
  free_nodup s := List.nodup_range.filter _
  table id f := by
    show AList.lookup id (∅ : PageTable) = some f ↔ _
    rw [AList.lookup_empty]
    split <;> simp
  ident id f h := by split at h <;> cases h
  lru s f := by
    show f ∈ [] ↔ _
    simp only [List.not_mem_nil, false_iff]
    rintro ⟨id, h, -⟩
    split at h <;> cases h
  lru_nodup s := List.nodup_nil

/-! ## What the places say -/

theorem Wf.lookup_none (h : Wf m place) : m.pageTable.lookup id = none ↔ ∀ f, place f ≠ .resident id := by
  constructor
  · intro hn f hf
    rw [(h.table id f).2 hf] at hn
    cases hn
  · intro hf
    cases hl : m.pageTable.lookup id with
    | none => rfl
    | some f => exact absurd ((h.table id f).1 hl) (hf f)

theorem Wf.resident_inj (h : Wf m place) {g : FrameId} (hf : place f = .resident id)
    (hg : place g = .resident id) : f = g :=
  Option.some.inj (((h.table id f).2 hf).symm.trans ((h.table id g).2 hg))

theorem Wf.lru_mem (h : Wf m place) (hf : place f = .resident id) :
    f ∈ m.replacer s ↔ shardOfPage id = s ∧ (m.pages f).pinCount = 0 := by
  rw [h.lru]
  constructor
  · rintro ⟨id', hf', hs, hp⟩
    obtain rfl : id = id' := Place.resident.inj (hf.symm.trans hf')
    exact ⟨hs, hp⟩
  · rintro ⟨hs, hp⟩
    exact ⟨id, hf, hs, hp⟩

/-- The frames of a replacer without `f` are fewer than the pool's, so that there is room for it. -/
theorem Wf.lru_length (h : Wf m place) (hf : f < m.poolSize) (hn : f ∉ m.replacer s) :
    (m.replacer s).length < m.poolSize := by
  have hsub : f :: m.replacer s ⊆ List.range m.poolSize := by
    intro g hg
    rcases List.mem_cons.1 hg with rfl | hg
    · exact List.mem_range.2 hf
    · obtain ⟨id, hid, -⟩ := (h.lru s g).1 hg
      refine List.mem_range.2 ((h.size g).2 ?_)
      rw [hid]
      exact fun hc => (by cases hc)
  have hlen := (List.nodup_cons.2 ⟨hn, h.lru_nodup s⟩).subperm hsub |>.length_le
  rw [List.length_cons, List.length_range] at hlen
  omega

/-! ## Sections -/

/-- A change of a frame that its place does not speak of. -/
theorem Wf.setPage (h : Wf m place) {p : Page α} (hid : p.id = (m.pages f).id)
    (hpin : p.pinCount = 0 ↔ (m.pages f).pinCount = 0) : Wf (m.setPage f p) place where
  size := h.size
  free := h.free
  free_nodup := h.free_nodup
  table := h.table
  ident := by
    intro id g hg
    show (Function.update m.pages f p g).id = some id
    by_cases hgf : g = f
    · subst hgf
      rw [Function.update_self, hid]
      exact h.ident id g hg
    · rw [Function.update_of_ne hgf]
      exact h.ident id g hg
  lru := by
    intro s g
    show g ∈ m.replacer s ↔ ∃ id, place g = .resident id ∧ shardOfPage id = s ∧
      (Function.update m.pages f p g).pinCount = 0
    by_cases hgf : g = f
    · subst hgf
      rw [Function.update_self, hpin]
      exact h.lru s g
    · rw [Function.update_of_ne hgf]
      exact h.lru s g
  lru_nodup := h.lru_nodup

/-- The fields that the places do not speak of. -/
theorem Wf.congr (h : Wf m place) (hsize : m'.poolSize = m.poolSize) (hpages : m'.pages = m.pages)
    (htable : m'.pageTable = m.pageTable) (hlru : m'.replacer = m.replacer)
    (hfree : m'.freeFrames = m.freeFrames) : Wf m' place where
  size := by rw [hsize]; exact h.size
  free := by rw [hfree]; exact h.free
  free_nodup := by rw [hfree]; exact h.free_nodup
  table := by rw [htable]; exact h.table
  ident := by rw [hpages]; exact h.ident
  lru := by rw [hlru, hpages]; exact h.lru
  lru_nodup := by rw [hlru]; exact h.lru_nodup

/-- A page goes to a frame that was taken. -/
theorem Wf.insert (h : Wf m place) (hf : place f = .reserved) (hid : ∀ g, place g ≠ .resident id)
    {p : Page α} (hpid : p.id = some id) (hpin : p.pinCount ≠ 0) :
    Wf { m.setPage f p with pageTable := m.pageTable.insert id f } (Function.update place f (.resident id)) where
  size := by
    intro g
    show g < m.poolSize ↔ _
    rw [h.size]
    by_cases hgf : g = f
    · subst hgf
      rw [Function.update_self, hf]
      simp
    · rw [Function.update_of_ne hgf]
  free := by
    intro s g
    show g ∈ m.freeFrames s ↔ _
    rw [h.free]
    by_cases hgf : g = f
    · subst hgf
      rw [Function.update_self, hf]
      simp
    · rw [Function.update_of_ne hgf]
  free_nodup := h.free_nodup
  table := by
    intro id' g
    show (m.pageTable.insert id f).lookup id' = some g ↔ _
    by_cases hid' : id' = id
    · subst hid'
      rw [AList.lookup_insert]
      by_cases hgf : g = f
      · subst hgf
        simp
      · rw [Function.update_of_ne hgf]
        refine ⟨fun hg => absurd (Option.some.inj hg).symm hgf, fun hg => absurd hg (hid g)⟩
    · rw [AList.lookup_insert_ne hid', h.table]
      by_cases hgf : g = f
      · subst hgf
        rw [Function.update_self, hf]
        refine ⟨fun hg => (by cases hg), fun hg => absurd (Place.resident.inj hg).symm hid'⟩
      · rw [Function.update_of_ne hgf]
  ident := by
    intro id' g hg
    show (Function.update m.pages f p g).id = some id'
    by_cases hgf : g = f
    · subst hgf
      rw [Function.update_self] at hg ⊢
      rw [hpid, Place.resident.inj hg]
    · rw [Function.update_of_ne hgf] at hg ⊢
      exact h.ident id' g hg
  lru := by
    intro s g
    show g ∈ m.replacer s ↔ ∃ id', Function.update place f (.resident id) g = .resident id' ∧
      shardOfPage id' = s ∧ (Function.update m.pages f p g).pinCount = 0
    rw [h.lru]
    by_cases hgf : g = f
    · subst hgf
      rw [Function.update_self, Function.update_self, hf]
      simp [hpin]
    · rw [Function.update_of_ne hgf, Function.update_of_ne hgf]
  lru_nodup := h.lru_nodup

/-- An unpinned page leaves its frame, which is taken. -/
theorem Wf.remove (h : Wf m place) (hf : place f = .resident id) {L : List FrameId}
    (hL : ∀ g, g ∈ L ↔ g ∈ m.replacer (shardOfPage id) ∧ g ≠ f) (hnodup : L.Nodup) (p : Page α) :
    Wf { m.setPage f p with
        pageTable := m.pageTable.erase id
        replacer := Function.update m.replacer (shardOfPage id) L }
      (Function.update place f .reserved) where
  size := by
    intro g
    show g < m.poolSize ↔ _
    rw [h.size]
    by_cases hgf : g = f
    · subst hgf
      rw [Function.update_self, hf]
      simp
    · rw [Function.update_of_ne hgf]
  free := by
    intro s g
    show g ∈ m.freeFrames s ↔ _
    rw [h.free]
    by_cases hgf : g = f
    · subst hgf
      rw [Function.update_self, hf]
      simp
    · rw [Function.update_of_ne hgf]
  free_nodup := h.free_nodup
  table := by
    intro id' g
    show (m.pageTable.erase id).lookup id' = some g ↔ _
    by_cases hgf : g = f
    · subst hgf
      rw [Function.update_self]
      by_cases hid' : id' = id
      · subst hid'
        rw [AList.lookup_erase]
        simp
      · rw [AList.lookup_erase_ne hid', h.table, hf]
        exact ⟨fun hg => absurd (Place.resident.inj hg).symm hid', fun hg => (by cases hg)⟩
    · rw [Function.update_of_ne hgf]
      by_cases hid' : id' = id
      · subst hid'
        rw [AList.lookup_erase]
        exact ⟨fun hg => (by cases hg), fun hg => absurd (h.resident_inj hg hf) hgf⟩
      · rw [AList.lookup_erase_ne hid', h.table]
  ident := by
    intro id' g hg
    show (Function.update m.pages f p g).id = some id'
    by_cases hgf : g = f
    · subst hgf
      rw [Function.update_self] at hg
      cases hg
    · rw [Function.update_of_ne hgf] at hg ⊢
      exact h.ident id' g hg
  lru := by
    intro s g
    show g ∈ Function.update m.replacer (shardOfPage id) L s ↔
      ∃ id', Function.update place f .reserved g = .resident id' ∧ shardOfPage id' = s ∧
        (Function.update m.pages f p g).pinCount = 0
    have hold : g ∈ Function.update m.replacer (shardOfPage id) L s ↔ g ∈ m.replacer s ∧ g ≠ f := by
      by_cases hs : s = shardOfPage id
      · subst hs
        rw [Function.update_self]
        exact hL g
      · rw [Function.update_of_ne hs]
        refine ⟨fun hg => ⟨hg, ?_⟩, fun hg => hg.1⟩
        rintro rfl
        exact hs ((h.lru_mem hf).1 hg).1.symm
    rw [hold]
    by_cases hgf : g = f
    · subst hgf
      rw [Function.update_self]
      simp
    · rw [Function.update_of_ne hgf, Function.update_of_ne hgf, h.lru]
      simp [hgf]
  lru_nodup := by
    intro s
    show (Function.update m.replacer (shardOfPage id) L s).Nodup
    by_cases hs : s = shardOfPage id
    · subst hs
      rw [Function.update_self]
      exact hnodup
    · rw [Function.update_of_ne hs]
      exact h.lru_nodup s

/-- The pin count of a page becomes `0` or is no more so, and the replacer follows. -/
theorem Wf.setPin (h : Wf m place) (hf : place f = .resident id) {L : List FrameId} {p : Page α}
    (hid : p.id = (m.pages f).id)
    (hL : ∀ g, g ∈ L ↔ g ∈ m.replacer (shardOfPage id) ∧ g ≠ f ∨ g = f ∧ p.pinCount = 0) (hnodup : L.Nodup) :
    Wf { m.setPage f p with replacer := Function.update m.replacer (shardOfPage id) L } place where
  size := h.size
  free := h.free
  free_nodup := h.free_nodup
  table := h.table
  ident := by
    intro id' g hg
    show (Function.update m.pages f p g).id = some id'
    by_cases hgf : g = f
    · subst hgf
      rw [Function.update_self, hid]
      exact h.ident id' g hg
    · rw [Function.update_of_ne hgf]
      exact h.ident id' g hg
  lru := by
    intro s g
    show g ∈ Function.update m.replacer (shardOfPage id) L s ↔
      ∃ id', place g = .resident id' ∧ shardOfPage id' = s ∧ (Function.update m.pages f p g).pinCount = 0
    by_cases hgf : g = f
    · subst hgf
      rw [Function.update_self, hf]
      by_cases hs : s = shardOfPage id
      · subst hs
        rw [Function.update_self, hL]
        simp
      · rw [Function.update_of_ne hs, h.lru_mem hf]
        simp [Ne.symm hs]
    · rw [Function.update_of_ne hgf, ← h.lru]
      by_cases hs : s = shardOfPage id
      · subst hs
        rw [Function.update_self, hL]
        simp [hgf]
      · rw [Function.update_of_ne hs]
  lru_nodup := by
    intro s
    show (Function.update m.replacer (shardOfPage id) L s).Nodup
    by_cases hs : s = shardOfPage id
    · subst hs
      rw [Function.update_self]
      exact hnodup
    · rw [Function.update_of_ne hs]
      exact h.lru_nodup s

/-- A frame leaves the free list of its shard. -/
theorem Wf.takeFree (h : Wf m place) {fs : List FrameId} (hs : m.freeFrames s = f :: fs) (p : Page α) :
    place f = .free ∧ Wf { m.setPage f p with freeFrames := Function.update m.freeFrames s fs }
      (Function.update place f .reserved) := by
  have hnodup : f ∉ fs ∧ fs.Nodup := List.nodup_cons.1 (hs ▸ h.free_nodup s)
  obtain ⟨hf, hshard⟩ := (h.free s f).1 (by rw [hs]; exact List.mem_cons_self)
  refine ⟨hf, ?_, ?_, ?_, ?_, ?_, ?_, h.lru_nodup⟩
  · intro g
    show g < m.poolSize ↔ _
    rw [h.size]
    by_cases hgf : g = f
    · subst hgf
      rw [Function.update_self, hf]
      simp
    · rw [Function.update_of_ne hgf]
  · intro s' g
    show g ∈ Function.update m.freeFrames s fs s' ↔ _
    by_cases hs' : s' = s
    · subst hs'
      rw [Function.update_self]
      by_cases hgf : g = f
      · subst hgf
        rw [Function.update_self]
        simp [hnodup.1]
      · rw [Function.update_of_ne hgf, ← h.free, hs, List.mem_cons, or_iff_right hgf]
    · rw [Function.update_of_ne hs', h.free]
      by_cases hgf : g = f
      · subst hgf
        rw [Function.update_self]
        simp only [reduceCtorEq, false_and, iff_false, not_and]
        exact fun _ hc => hs' (hc.symm.trans hshard)
      · rw [Function.update_of_ne hgf]
  · intro s'
    show (Function.update m.freeFrames s fs s').Nodup
    by_cases hs' : s' = s
    · subst hs'
      rw [Function.update_self]
      exact hnodup.2
    · rw [Function.update_of_ne hs']
      exact h.free_nodup s'
  · intro id g
    show m.pageTable.lookup id = some g ↔ _
    rw [h.table]
    by_cases hgf : g = f
    · subst hgf
      rw [Function.update_self, hf]
      simp
    · rw [Function.update_of_ne hgf]
  · intro id g hg
    show (Function.update m.pages f p g).id = some id
    by_cases hgf : g = f
    · subst hgf
      rw [Function.update_self] at hg
      cases hg
    · rw [Function.update_of_ne hgf] at hg ⊢
      exact h.ident id g hg
  · intro s' g
    show g ∈ m.replacer s' ↔ ∃ id, Function.update place f .reserved g = .resident id ∧
      shardOfPage id = s' ∧ (Function.update m.pages f p g).pinCount = 0
    rw [h.lru]
    by_cases hgf : g = f
    · subst hgf
      rw [Function.update_self, hf]
      simp
    · rw [Function.update_of_ne hgf, Function.update_of_ne hgf]

theorem Wf.pushFree (h : Wf m place) (hf : place f = .reserved) :
    Wf (m.pushFree f) (Function.update place f .free) where
  size := by
    intro g
    show g < m.poolSize ↔ _
    rw [h.size]
    by_cases hgf : g = f
    · subst hgf
      rw [Function.update_self, hf]
      simp
    · rw [Function.update_of_ne hgf]
  free := by
    intro s g
    show g ∈ Function.update m.freeFrames (f % nshards) (m.freeFrames (f % nshards) ++ [f]) s ↔ _
    by_cases hs : s = f % nshards
    · subst hs
      rw [Function.update_self, List.mem_append, List.mem_singleton, h.free]
      by_cases hgf : g = f
      · subst hgf
        rw [Function.update_self]
        simp
      · rw [Function.update_of_ne hgf]
        simp [hgf]
    · rw [Function.update_of_ne hs, h.free]
      by_cases hgf : g = f
      · subst hgf
        rw [Function.update_self, hf]
        simp [Ne.symm hs]
      · rw [Function.update_of_ne hgf]
  free_nodup := by
    intro s
    show (Function.update m.freeFrames (f % nshards) (m.freeFrames (f % nshards) ++ [f]) s).Nodup
    by_cases hs : s = f % nshards
    · subst hs
      rw [Function.update_self]
      refine (h.free_nodup _).concat ?_ |> fun h => by simpa using h
      intro hc
      rw [h.free, hf] at hc
      cases hc.1
    · rw [Function.update_of_ne hs]
      exact h.free_nodup s
  table := by
    intro id g
    show m.pageTable.lookup id = some g ↔ _
    rw [h.table]
    by_cases hgf : g = f
    · subst hgf
      rw [Function.update_self, hf]
      simp
    · rw [Function.update_of_ne hgf]
  ident := by
    intro id g hg
    show (m.pages g).id = some id
    by_cases hgf : g = f
    · subst hgf
      rw [Function.update_self] at hg
      cases hg
    · rw [Function.update_of_ne hgf] at hg
      exact h.ident id g hg
  lru := by
    intro s g
    show g ∈ m.replacer s ↔ ∃ id, Function.update place f .free g = .resident id ∧ shardOfPage id = s ∧
      (m.pages g).pinCount = 0
    rw [h.lru]
    by_cases hgf : g = f
    · subst hgf
      rw [Function.update_self, hf]
      simp
    · rw [Function.update_of_ne hgf]
  lru_nodup := h.lru_nodup

/-! ## Reserving -/

/-- What `reserve_victim_nolock` does when it finds a frame. -/
structure Taken (m : BufferPool α) (place : FrameId → Place) (r : Reserved) (m' : BufferPool α) : Prop where
  wf : Wf m' (Function.update place r.frame .reserved)
  was : place r.frame = .free ∧ r.oldPageId = none ∧ r.needFlush = false ∨
    ∃ id, place r.frame = .resident id ∧ (m.pages r.frame).pinCount = 0 ∧ r.oldPageId = some id ∧
      r.needFlush = (m.pages r.frame).isDirty
  pages : m'.pages = Function.update m.pages r.frame { m.pages r.frame with pinCount := 1 }
  disk : m'.disk = m.disk
  fileLen : m'.fileLen = m.fileLen
  pageIo : m'.pageIoInflight = m.pageIoInflight
  frameIo : m'.frameIoInflight = Function.update m.frameIoInflight r.frame true
  counters : m'.fd2pageno = m.fd2pageno

theorem mem_dropLast_of_nodup {l : List FrameId} (hl : l.Nodup) (hf : l.getLast? = some f) :
    ∀ g, g ∈ l.dropLast ↔ g ∈ l ∧ g ≠ f := by
  intro g
  have hsplit : l.dropLast ++ [f] = l := List.dropLast_append_getLast? f hf
  rw [← hsplit] at hl
  have hnot : f ∉ l.dropLast := fun hc => by
    have := List.nodup_append.1 hl
    exact this.2.2 f hc f (List.mem_singleton_self f) rfl
  constructor
  · intro hg
    refine ⟨List.dropLast_subset l hg, ?_⟩
    rintro rfl
    exact hnot hg
  · rintro ⟨hg, hgf⟩
    rw [← hsplit, List.mem_append, List.mem_singleton] at hg
    exact hg.resolve_right hgf

theorem Wf.tryReserve (h : Wf m place) {r : Reserved} (hr : m.tryReserve s = some (r, m')) :
    Taken m place r m' := by
  unfold BufferPool.tryReserve at hr
  split at hr
  · next f fs hfree =>
      cases hr
      obtain ⟨hf, hwf⟩ := h.takeFree hfree { m.pages f with pinCount := 1 }
      exact ⟨hwf.congr rfl rfl rfl rfl rfl, .inl ⟨hf, rfl, rfl⟩, rfl, rfl, rfl, rfl, rfl, rfl⟩
  · next hfree =>
      unfold BufferPool.lruVictim at hr
      cases hl : (m.replacer s).getLast? with
      | none => simp [hl] at hr
      | some f =>
          obtain ⟨id, hf, hs, hpin⟩ := (h.lru s f).1 (List.mem_of_getLast? hl)
          subst hs
          simp only [hl, h.ident id f hf] at hr
          cases hr
          have hpage : (⟨some id, (m.pages f).data, (m.pages f).isDirty, 1⟩ : Page α) =
              { m.pages f with pinCount := 1 } := by
            rw [← h.ident id f hf]
          refine ⟨?_, .inr ⟨id, hf, hpin, rfl, rfl⟩, congrArg (Function.update m.pages f) hpage, rfl, rfl,
            rfl, rfl, rfl⟩
          exact (h.remove hf (mem_dropLast_of_nodup (h.lru_nodup _) hl)
            ((List.dropLast_sublist _).nodup (h.lru_nodup _)) ⟨some id, _, _, 1⟩).congr
            rfl rfl rfl rfl rfl

theorem Wf.reserveVictim (h : Wf m place) {pref : Nat} {r : Reserved}
    (hr : m.reserveVictim pref = some (r, m')) : Taken m place r m' := by
  obtain ⟨k, -, hk⟩ := List.exists_of_findSome?_eq_some hr
  exact h.tryReserve hk

end Rmdb.Buffer
