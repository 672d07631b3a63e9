import Rmdb.Buffer.Contents

/-!
# The calls, one at a time

What each function of the buffer pool does to the places of the frames and to the contents,
when no other call is under way (`Settled`): one lemma for each.
-/

namespace Rmdb.Buffer

variable {α : Type} {m m' m1 : BufferPool α} {place place' : FrameId → Place} {ok : PageId → α → Prop}
  {kept : PageId → Prop} {owed : FrameId → Prop} {id : PageId} {f : FrameId} {r : Reserved}

/-- No call is under way. -/
structure Settled (m : BufferPool α) (place : FrameId → Place) : Prop where
  wf : Wf m place
  places : ∀ f, place f ≠ .reserved
  pageIo : ∀ id, m.pageIoInflight id = false
  frameIo : ∀ f, m.frameIoInflight f = false

/-- The pool is settled and holds contents that will do. -/
structure Good (m : BufferPool α) (place : FrameId → Place) (ok : PageId → α → Prop) (kept : PageId → Prop)
    (owed : FrameId → Prop) : Prop where
  settled : Settled m place
  stored : Stored m place ok kept owed fun _ => False

/-- Page `id` was put into frame `f` or found there, and its pin count is one more. -/
structure Fetched (m : BufferPool α) (place : FrameId → Place) (id : PageId) (f : FrameId)
    (m' : BufferPool α) (place' : FrameId → Place) : Prop where
  placed : place' = Function.update place f (.resident id)
  others : ∀ g ≠ f, m'.pages g = m.pages g
  was : place f = .resident id ∧ (m'.pages f).pinCount = (m.pages f).pinCount + 1 ∨
    (place f = .free ∨ ∃ old, place f = .resident old ∧ old ≠ id ∧ (m.pages f).pinCount = 0) ∧
      (m'.pages f).pinCount = 1

/-! ## Pinning a page that is there -/

theorem Wf.addPin (h : Wf m place) (hpin : 0 < (m.pages f).pinCount) : Wf (m.addPin f) place :=
  h.setPage rfl (by simp; omega)

theorem Wf.pinResident (h : Wf m place) (hf : place f = .resident id) (hpin : (m.pages f).pinCount = 0) :
    Wf (m.pinResident id f) place := by
  unfold BufferPool.pinResident
  rw [if_pos hpin]
  refine (h.setPin hf (p := { m.pages f with pinCount := (m.pages f).pinCount + 1 }) rfl ?_
    ((h.lru_nodup _).erase f)).congr rfl rfl rfl rfl rfl
  intro g
  rw [(h.lru_nodup _).mem_erase_iff]
  simp [and_comm]

/-- A hit: the page is resident, pinned or not. -/
theorem Good.hit (h : Good m place ok kept owed) (hf : place f = .resident id)
    (hm : m' = m.addPin f ∧ 0 < (m.pages f).pinCount ∨
      m' = m.pinResident id f ∧ (m.pages f).pinCount = 0) :
    Good m' place ok kept owed ∧ Fetched m place id f m' place := by
  have hplace : place = Function.update place f (.resident id) := by
    rw [← hf, Function.update_eq_self]
  have hstored : ∀ n, Stored (m.setPage f { m.pages f with pinCount := n }) place ok kept owed fun _ => False :=
    fun n => h.stored.setResident hf (h.stored.data id f hf) (h.stored.clean id f hf)
  rcases hm with ⟨rfl, hpin⟩ | ⟨rfl, hpin⟩
  · refine ⟨⟨⟨h.settled.wf.addPin hpin, h.settled.places, h.settled.pageIo, h.settled.frameIo⟩,
      hstored _⟩, hplace, ?_, .inl ⟨hf, ?_⟩⟩
    · intro g hg
      exact Function.update_of_ne hg ..
    · show (Function.update m.pages f _ f).pinCount = _
      rw [Function.update_self]
  · have hpool : m.pinResident id f = (m.lruPin (shardOfPage id) f).addPin f := by
      unfold BufferPool.pinResident
      rw [if_pos hpin]
    refine ⟨⟨⟨h.settled.wf.pinResident hf hpin, h.settled.places, ?_, ?_⟩, ?_⟩, hplace, ?_, .inl ⟨hf, ?_⟩⟩
    · rw [hpool]; exact h.settled.pageIo
    · rw [hpool]; exact h.settled.frameIo
    · rw [hpool]; exact (hstored _).congr rfl rfl rfl
    · intro g hg
      rw [hpool]
      exact Function.update_of_ne hg ..
    · rw [hpool]
      show (Function.update m.pages f _ f).pinCount = _
      rw [Function.update_self]
      rfl

/-! ## Bringing a page in -/

theorem writeOld_fields : (m.writeOld r).pages = m.pages ∧ (m.writeOld r).poolSize = m.poolSize ∧
    (m.writeOld r).pageTable = m.pageTable ∧ (m.writeOld r).replacer = m.replacer ∧
    (m.writeOld r).freeFrames = m.freeFrames ∧ (m.writeOld r).pageIoInflight = m.pageIoInflight ∧
    (m.writeOld r).frameIoInflight = m.frameIoInflight ∧ (m.writeOld r).fd2pageno = m.fd2pageno := by
  unfold BufferPool.writeOld BufferPool.writeBack
  split
  · split <;> exact ⟨rfl, rfl, rfl, rfl, rfl, rfl, rfl, rfl⟩
  · exact ⟨rfl, rfl, rfl, rfl, rfl, rfl, rfl, rfl⟩

theorem writeOld_disk (hid : ¬ r.writes id) : (m.writeOld r).disk id = m.disk id := by
  unfold BufferPool.writeOld BufferPool.writeBack
  cases hold : r.oldPageId with
  | none => rfl
  | some old =>
      cases hflush : r.needFlush with
      | false => rfl
      | true =>
          refine Function.update_of_ne ?_ ..
          rintro rfl
          exact hid ⟨hold, hflush⟩

theorem inFile_writeOld (h : m.InFile id) : (m.writeOld r).InFile id := by
  unfold BufferPool.writeOld BufferPool.writeBack
  split
  · split
    · exact (inFile_writePage _ _ _).2 id h
    · exact h
  · exact h

theorem Wf.writeOld (h : Wf m place) : Wf (m.writeOld r) place := by
  obtain ⟨hp, hs, ht, hl, hf, -⟩ := writeOld_fields (m := m) (r := r)
  exact h.congr hs hp ht hl hf

theorem Taken.away (_ : Taken m place r m') (hid : ∀ g, place g ≠ .resident id) (g : FrameId) :
    Function.update place r.frame .reserved g ≠ .resident id := by
  by_cases hg : g = r.frame
  · rw [hg, Function.update_self]
    exact fun hc => (by cases hc)
  · rw [Function.update_of_ne hg]
    exact hid g

/-- The frame that is taken held no pin. -/
theorem Taken.unpinned (ht : Taken m place r m') (hf : place r.frame = .resident id) :
    (m.pages r.frame).pinCount = 0 := by
  rcases ht.was with ⟨hfree, -⟩ | ⟨old, -, hpin, -⟩
  · rw [hf] at hfree
    cases hfree
  · exact hpin

theorem Taken.not_reserved (ht : Taken m place r m') : place r.frame ≠ .reserved := by
  rcases ht.was with ⟨hfree, -⟩ | ⟨old, hf, -⟩
  · rw [hfree]; exact fun hc => (by cases hc)
  · rw [hf]; exact fun hc => (by cases hc)

theorem Taken.pages_of_ne (ht : Taken m place r m') {g : FrameId} (hg : g ≠ r.frame) :
    m'.pages g = m.pages g := by
  rw [ht.pages, Function.update_of_ne hg]

/-- The frame of `r` is taken, and its page is written if need be. -/
theorem Stored.takenWritten (h : Stored m place ok kept owed fun _ => False) (ht : Taken m place r m')
    (howed : ∀ g, owed g → 0 < (m.pages g).pinCount) :
    Stored (m'.writeOld r) (Function.update place r.frame .reserved) ok kept owed fun _ => False := by
  have hnot : ∀ id', place r.frame = .resident id' → ¬ owed r.frame := by
    intro id' hf ho
    have hpin := howed _ ho
    have h0 := ht.unpinned hf
    omega
  obtain ⟨hstored, hold⟩ := h.taken ht hnot
  exact hstored.writeOld hold

/-- The frame of `r` is taken, its page is written if need be, and `p` is put there under the
key of `id`. -/
theorem Stored.bring (h : Stored m place ok kept owed fun _ => False) (hplaces : ∀ f, place f ≠ .reserved)
    (howed : ∀ g, owed g → 0 < (m.pages g).pinCount) (ht : Taken m place r m') (hid : ∀ g, place g ≠ .resident id)
    {p : Page α} (hpid : p.id = some id) (hpin : p.pinCount = 1)
    (hdata : ok id ((m'.writeOld r).disk id) → ok id p.data) {b : PageId → Bool} {q : FrameId → Bool}
    (hb : ∀ id, b id = false) (hq : ∀ g, q g = false) :
    Good { (m'.writeOld r).setPage r.frame p with
        pageTable := (m'.writeOld r).pageTable.insert id r.frame
        pageIoInflight := b
        frameIoInflight := q } (Function.update place r.frame (.resident id)) ok kept owed ∧
      Fetched m place id r.frame { (m'.writeOld r).setPage r.frame p with
        pageTable := (m'.writeOld r).pageTable.insert id r.frame
        pageIoInflight := b
        frameIoInflight := q } (Function.update place r.frame (.resident id)) := by
  have hreserved : Function.update place r.frame .reserved r.frame = .reserved := Function.update_self ..
  have hid' := ht.away hid
  have hwritten := h.takenWritten ht howed
  have hdisk : Has (m'.writeOld r) ok kept id := (hwritten.away id hid').resolve_right fun hc => hc
  have hplace : Function.update place r.frame (.resident id) =
      Function.update (Function.update place r.frame .reserved) r.frame (.resident id) :=
    (Function.update_idem ..).symm
  refine ⟨⟨⟨?_, ?_, hb, hq⟩, ?_⟩, rfl, ?_, ?_⟩
  · rw [hplace]
    exact (ht.wf.writeOld.insert hreserved hid' hpid (by omega)).congr rfl rfl rfl rfl rfl
  · intro g
    by_cases hg : g = r.frame
    · subst hg
      rw [Function.update_self]
      exact fun hc => (by cases hc)
    · rw [Function.update_of_ne hg]
      exact hplaces g
  · rw [hplace]
    exact (hwritten.insert (hdata hdisk.1) (fun _ => .inl hdisk)
      (fun id hc => by rw [hreserved] at hc; cases hc)).congr rfl rfl rfl
  · intro g hg
    show Function.update (m'.writeOld r).pages r.frame p g = m.pages g
    rw [Function.update_of_ne hg, writeOld_fields.1, ht.pages, Function.update_of_ne hg]
  · right
    have hpage : (Function.update (m'.writeOld r).pages r.frame p r.frame).pinCount = 1 := by
      rw [Function.update_self]
      exact hpin
    refine ⟨?_, hpage⟩
    rcases ht.was with ⟨hfree, -⟩ | ⟨old, hf, hpin, -⟩
    · exact .inl hfree
    · exact .inr ⟨old, hf, fun hc => hid r.frame (hc ▸ hf), hpin⟩

/-- Nothing but the mark of a page under way has changed. -/
theorem Good.setPageIo (h : Good m place ok kept owed) (b : PageId → Bool) (hb : ∀ id, b id = false) :
    Good { m with pageIoInflight := b } place ok kept owed :=
  ⟨⟨h.settled.wf.congr rfl rfl rfl rfl rfl, h.settled.places, hb, h.settled.frameIo⟩,
    h.stored.congr rfl rfl rfl⟩

theorem update_false {β : Type} [DecidableEq β] {b : β → Bool} {x : β} {c : Bool}
    (hb : ∀ y, b y = false) : ∀ y, Function.update (Function.update b x c) x false y = false := by
  intro y
  rw [Function.update_idem]
  by_cases hy : y = x
  · rw [hy, Function.update_self]
  · rw [Function.update_of_ne hy]
    exact hb y

/-! ## Giving a frame back -/

/-- What no page has may be anything. -/
theorem Wf.same (h : Wf m place) (hsize : m'.poolSize = m.poolSize) (htable : m'.pageTable = m.pageTable)
    (hlru : m'.replacer = m.replacer) (hfree : m'.freeFrames = m.freeFrames)
    (hpages : ∀ g id, place g = .resident id → m'.pages g = m.pages g) : Wf m' place where
  size := by rw [hsize]; exact h.size
  free := by rw [hfree]; exact h.free
  free_nodup := by rw [hfree]; exact h.free_nodup
  table := by rw [htable]; exact h.table
  ident := by
    intro id f hf
    rw [hpages f id hf]
    exact h.ident id f hf
  lru := by
    intro s f
    rw [hlru, h.lru]
    constructor
    · rintro ⟨id, hf, hs, hpin⟩
      exact ⟨id, hf, hs, by rw [hpages f id hf]; exact hpin⟩
    · rintro ⟨id, hf, hs, hpin⟩
      exact ⟨id, hf, hs, by rw [← hpages f id hf]; exact hpin⟩
  lru_nodup := by rw [hlru]; exact h.lru_nodup

/-- A frame that no page has goes to its free list. -/
theorem Wf.freeFrame (h : Wf m place) (hf : place f = .reserved) :
    Wf (m.freeFrame f) (Function.update place f .free) := by
  have hset : Wf (m.setPage f { m.pages f with id := none, pinCount := 0, isDirty := false }) place := by
    refine h.same rfl rfl rfl rfl fun g id' hg => ?_
    refine Function.update_of_ne ?_ ..
    rintro rfl
    rw [hf] at hg
    cases hg
  exact hset.pushFree hf

theorem Stored.freeFrame (h : Stored m place ok kept owed pending) (hf : ∀ id, place f ≠ .resident id) :
    Stored (m.freeFrame f) (Function.update place f .free) ok kept owed pending := by
  have hpages : ∀ g ≠ f, (m.freeFrame f).pages g = m.pages g := fun g hg => Function.update_of_ne hg ..
  refine (h.remove (p := .free) (fun id hc => absurd hc (hf id)) hpages rfl rfl fun id hc => (by cases hc)).mono
    (fun _ ho => ho) ?_
  rintro id (hc | ⟨hc, -⟩)
  · exact hc
  · exact absurd hc (hf id)

/-- The pool after the handler of `fetch_page`, when the frame was taken by this call and the rest is as
it was. -/
structure GivenBack (m : BufferPool α) (place : FrameId → Place) (f : FrameId) (m' : BufferPool α) : Prop where
  settled : Settled m' (Function.update place f .free)
  was : place f = .free ∨ ∃ old, place f = .resident old ∧ (m.pages f).pinCount = 0
  others : ∀ g ≠ f, m'.pages g = m.pages g

/-- `giveBack` after accesses that left the pages of the other frames, and the tables, alone. -/
theorem GivenBack.of_taken (h : Settled m place) (ht : Taken (m.setPageIo id true) place r m1)
    {m2 : BufferPool α} (hsize : m2.poolSize = m1.poolSize) (htable : m2.pageTable = m1.pageTable)
    (hlru : m2.replacer = m1.replacer) (hfree : m2.freeFrames = m1.freeFrames)
    (hpio : m2.pageIoInflight = m1.pageIoInflight) (hfio : m2.frameIoInflight = m1.frameIoInflight)
    (hpages : ∀ g ≠ r.frame, m2.pages g = m1.pages g) :
    GivenBack m place r.frame (m2.giveBack id r.frame) := by
  have hplace : Function.update place r.frame .free =
      Function.update (Function.update place r.frame .reserved) r.frame .free :=
    (Function.update_idem ..).symm
  have hreserved : Function.update place r.frame .reserved r.frame = .reserved := Function.update_self ..
  refine ⟨⟨?_, ?_, ?_, ?_⟩, ?_, ?_⟩
  · rw [hplace]
    have hwf : Wf m2 (Function.update place r.frame .reserved) := by
      refine ht.wf.same hsize htable hlru hfree fun g id' hg => hpages g ?_
      rintro rfl
      rw [hreserved] at hg
      cases hg
    exact (hwf.freeFrame hreserved).congr rfl rfl rfl rfl rfl
  · intro g
    by_cases hg : g = r.frame
    · rw [hg, Function.update_self]
      exact fun hc => (by cases hc)
    · rw [Function.update_of_ne hg]
      exact h.places g
  · show ∀ id', Function.update m2.pageIoInflight id false id' = false
    rw [hpio, ht.pageIo]
    exact update_false h.pageIo
  · show ∀ g, Function.update m2.frameIoInflight r.frame false g = false
    rw [hfio, ht.frameIo]
    exact update_false h.frameIo
  · rcases ht.was with ⟨hf, -⟩ | ⟨old, hf, hpin, -⟩
    · exact .inl hf
    · exact .inr ⟨old, hf, hpin⟩
  · intro g hg
    show Function.update m2.pages r.frame _ g = _
    rw [Function.update_of_ne hg, hpages g hg, ht.pages, Function.update_of_ne hg]
    rfl

theorem Stored.giveBack (h : Stored m (Function.update place f .reserved) ok kept owed fun _ => False) :
    Stored (m.giveBack id f) (Function.update place f .free) ok kept owed fun _ => False := by
  have hno : ∀ id', Function.update place f .reserved f ≠ .resident id' := by
    intro id' hc
    rw [Function.update_self] at hc
    cases hc
  have hfree := h.freeFrame hno
  rw [Function.update_idem] at hfree
  exact hfree.congr rfl rfl rfl

/-- No frame can be had: each holds a page that is pinned. -/
theorem Wf.pinned_of_none (h : Wf m place) (hplaces : ∀ f, place f ≠ .reserved) {pref : Nat}
    (hnone : m.reserveVictim pref = none) (hlt : pref < nshards) (f : FrameId) (hf : f < m.poolSize) :
    ∃ id, place f = .resident id ∧ 0 < (m.pages f).pinCount := by
  -- the round of the loop that comes to a shard
  have htry : ∀ s < nshards, m.freeFrames s = [] ∧ m.replacer s = [] := by
    intro s hs
    have hround : (pref + (s + nshards - pref) % nshards) % nshards = s := by
      unfold nshards at *
      omega
    have htry := List.findSome?_eq_none_iff.1 hnone ((s + nshards - pref) % nshards)
      (List.mem_range.2 (Nat.mod_lt _ (by decide)))
    rw [hround] at htry
    unfold BufferPool.tryReserve BufferPool.lruVictim at htry
    split at htry
    · cases htry
    · next hempty =>
        refine ⟨hempty, ?_⟩
        cases hl : (m.replacer s).getLast? with
        | none => exact List.getLast?_eq_none_iff.1 hl
        | some g => simp [hl] at htry
  cases hp : place f with
  | outside => exact absurd hp ((h.size f).1 hf)
  | reserved => exact absurd hp (hplaces f)
  | free =>
      have hmem := (h.free (f % nshards) f).2 ⟨hp, rfl⟩
      rw [(htry _ (Nat.mod_lt _ (by decide))).1] at hmem
      cases hmem
  | resident id =>
      refine ⟨id, rfl, Nat.pos_of_ne_zero fun h0 => ?_⟩
      have hmem := (h.lru (shardOfPage id) f).2 ⟨id, hp, rfl, h0⟩
      rw [(htry _ (shardOfPage_lt id)).2] at hmem
      cases hmem

/-! ## Fetching -/

/-- `fetch_page` comes back: without a frame if all are pinned, with one that holds the page, or with the
error of `read_page` when the page is in no frame and not whole in its file. -/
theorem fetchPage_spec (h : Good m place ok kept owed) (howed : ∀ g, owed g → 0 < (m.pages g).pinCount)
    (id : PageId) :
    (∃ m', m.fetchPage id = some (.ok none, m') ∧ Good m' place ok kept owed ∧ m'.pages = m.pages ∧
        ∀ f < m.poolSize, ∃ id', place f = .resident id' ∧ 0 < (m.pages f).pinCount) ∨
      (∃ f m' place', m.fetchPage id = some (.ok (some f), m') ∧ Good m' place' ok kept owed ∧
        Fetched m place id f m' place') ∨
      ∃ f m', m.fetchPage id = some (.error readPageError, m') ∧
        Good m' (Function.update place f .free) ok kept owed ∧ GivenBack m place f m' ∧
        (∀ g, place g ≠ .resident id) ∧ ¬ m.InFile id ∧ ¬ kept id := by
  unfold BufferPool.fetchPage
  rw [if_neg (by rw [h.settled.pageIo id]; exact Bool.false_ne_true)]
  cases hl : m.pageTable.lookup id with
  | some f =>
      have hf : place f = .resident id := (h.settled.wf.table id f).1 hl
      right
      left
      by_cases hpin : 0 < (m.pages f).pinCount
      · obtain ⟨hgood, hfetched⟩ := h.hit hf (.inl ⟨rfl, hpin⟩)
        exact ⟨f, _, place, if_pos hpin, hgood, hfetched⟩
      · obtain ⟨hgood, hfetched⟩ := h.hit hf (.inr ⟨rfl, by omega⟩)
        refine ⟨f, _, place, ?_, hgood, hfetched⟩
        show (if 0 < (m.pages f).pinCount then _ else _) = _
        rw [if_neg hpin, if_neg (not_not.2 (h.settled.wf.ident id f hf)),
          if_neg (by rw [h.settled.frameIo f]; exact Bool.false_ne_true)]
  | none =>
      have hid := h.settled.wf.lookup_none.1 hl
      have hio := update_false (x := id) (c := true) h.settled.pageIo
      have hwf : Wf (m.setPageIo id true) place := h.settled.wf.congr rfl rfl rfl rfl rfl
      have hmarked : Stored (m.setPageIo id true) place ok kept owed fun _ => False := h.stored.congr rfl rfl rfl
      simp only
      cases hr : (m.setPageIo id true).reserveVictim (shardOfPage id) with
      | none =>
          left
          exact ⟨_, rfl, h.setPageIo _ hio, rfl, hwf.pinned_of_none h.settled.places hr (shardOfPage_lt id)⟩
      | some rm =>
          obtain ⟨r, m1⟩ := rm
          right
          have ht := hwf.reserveVictim hr
          obtain ⟨hp, hs, htab, hlru, hfree, hpio, hfio, -⟩ := writeOld_fields (m := m1) (r := r)
          by_cases hin : (m1.writeOld r).InFile id
          · left
            have hq : ∀ g, Function.update m1.frameIoInflight r.frame false g = false := by
              rw [ht.frameIo]
              exact update_false h.settled.frameIo
            have hb : ∀ id', Function.update m1.pageIoInflight id false id' = false := by
              rw [ht.pageIo]
              exact hio
            obtain ⟨hgood, hfetched⟩ := hmarked.bring h.settled.places howed ht hid
              (p := ⟨some id, (m1.writeOld r).disk id, false, 1⟩) rfl rfl (fun ho => ho) hb hq
            refine ⟨r.frame, _, _, ?_, hgood, hfetched.placed, hfetched.others, hfetched.was⟩
            have hpin : ((m1.writeOld r).pages r.frame).pinCount = 1 := by
              rw [hp, ht.pages, Function.update_self]
            show (if (m1.writeOld r).InFile id then _ else _) = _
            rw [← hpio, ← hfio, if_pos hin]
            simp [BufferPool.readInto, BufferPool.publish, BufferPool.setPage, BufferPool.setPageIo,
              BufferPool.setFrameIo, hpin]
          · right
            have hback : GivenBack m place r.frame ((m1.writeOld r).giveBack id r.frame) :=
              .of_taken h.settled ht hs htab hlru hfree hpio hfio fun g _ => by rw [hp]
            have hwritten := hmarked.takenWritten ht howed
            have haway := (hwritten.away id (ht.away hid)).resolve_right fun hc => hc
            refine ⟨r.frame, _, if_neg hin, ⟨hback.settled, hwritten.giveBack⟩, hback, hid, ?_, ?_⟩
            · intro hc
              have hlen : m1.fileLen = m.fileLen := ht.fileLen
              refine hin (inFile_writeOld ?_)
              show id.pageNo < m1.fileLen id.fd
              rw [hlen]
              exact hc
            · exact fun hk => hin (haway.2 hk)

theorem newPage_spec [Zero α] (h : Good m place ok kept owed) (howed : ∀ g, owed g → 0 < (m.pages g).pinCount)
    (fd : Nat) (hfresh : m.pageTable.lookup (m.nextPageId fd) = none) (h0 : ok (m.nextPageId fd) 0) :
    (∃ m', m.newPage fd = (none, m') ∧ Good m' place ok kept owed ∧ m'.pages = m.pages) ∨
      ∃ f m' place', m.newPage fd = (some f, m') ∧ Good m' place' ok kept owed ∧
        Fetched m place (m.nextPageId fd) f m' place' := by
  unfold BufferPool.newPage
  have hid := h.settled.wf.lookup_none.1 hfresh
  have hwf : Wf (m.allocatePage fd) place := h.settled.wf.congr rfl rfl rfl rfl rfl
  simp only
  cases hr : (m.allocatePage fd).reserveVictim (shardOfPage (m.nextPageId fd)) with
  | none =>
      left
      refine ⟨_, rfl, ⟨⟨hwf, h.settled.places, h.settled.pageIo, h.settled.frameIo⟩, ?_⟩, rfl⟩
      exact h.stored.congr rfl rfl rfl
  | some rm =>
      obtain ⟨r, m1⟩ := rm
      right
      have ht := hwf.reserveVictim hr
      have hq : ∀ g, Function.update m1.frameIoInflight r.frame false g = false := by
        rw [ht.frameIo]
        exact update_false h.settled.frameIo
      have hb : ∀ id', m1.pageIoInflight id' = false := by
        rw [ht.pageIo]
        exact h.settled.pageIo
      obtain ⟨hgood, hfetched⟩ := (h.stored.congr rfl rfl rfl : Stored (m.allocatePage fd) place ok kept owed _).bring
        h.settled.places howed ht hid (p := ⟨some (m.nextPageId fd), 0, false, 1⟩) rfl rfl (fun _ => h0) hb hq
      refine ⟨r.frame, _, _, ?_, hgood, hfetched.placed, hfetched.others, hfetched.was⟩
      obtain ⟨-, -, -, -, -, hpio, hfio, -⟩ := writeOld_fields (m := m1) (r := r)
      rw [← hpio, ← hfio]
      rfl

/-! ## Giving a page back -/

theorem Good.markDirty (h : Good m place ok kept owed) (hf : place f = .resident id) (d : Bool) :
    Good (m.markDirty f d) place ok kept fun g => owed g ∧ (g = f → d = false) := by
  refine ⟨⟨h.settled.wf.setPage rfl Iff.rfl, h.settled.places, h.settled.pageIo, h.settled.frameIo⟩, ?_⟩
  have hset := h.stored.setResident (p := { m.pages f with isDirty := (m.pages f).isDirty || d }) hf
    (h.stored.data id f hf) fun hc => h.stored.clean id f hf (Bool.or_eq_false_iff.1 hc).1
  refine ⟨hset.data, ?_, hset.away⟩
  intro id' g hg hclean
  refine (hset.clean id' g hg hclean).imp_right fun ho => ⟨ho, ?_⟩
  rintro rfl
  have : (Function.update m.pages g { m.pages g with isDirty := (m.pages g).isDirty || d } g).isDirty = false :=
    hclean
  rw [Function.update_self] at this
  exact (Bool.or_eq_false_iff.1 this).2

/-- There is room for a frame in a replacer it is not in. -/
theorem lruUnpin_eq {s : Nat} (hnot : f ∉ m.replacer s) (hlen : (m.replacer s).length < m.poolSize) :
    m.lruUnpin s f = { m with replacer := Function.update m.replacer s (f :: m.replacer s) } := by
  unfold BufferPool.lruUnpin
  rw [if_neg hnot, if_neg (Nat.not_le.2 hlen)]

theorem Wf.dropPin (h : Wf m place) (hf : place f = .resident id) : Wf (m.dropPin id f).2 place := by
  unfold BufferPool.dropPin
  by_cases h0 : (m.pages f).pinCount = 0
  · rw [if_pos h0]
    exact h
  · rw [if_neg h0]
    by_cases h1 : (m.pages f).pinCount = 1
    · rw [if_pos h1]
      have hnot : f ∉ m.replacer (shardOfPage id) := fun hc => h0 ((h.lru_mem hf).1 hc).2
      have hlt : f < m.poolSize := (h.size f).2 (by rw [hf]; exact fun hc => (by cases hc))
      have hlen := h.lru_length hlt hnot
      show Wf ((m.setPage f { m.pages f with pinCount := 0 }).lruUnpin (shardOfPage id) f) place
      rw [lruUnpin_eq (by exact hnot) (by exact hlen)]
      refine h.setPin hf rfl ?_ (List.nodup_cons.2 ⟨hnot, h.lru_nodup _⟩)
      intro g
      rw [List.mem_cons]
      constructor
      · rintro (rfl | hg)
        · exact .inr ⟨rfl, rfl⟩
        · exact .inl ⟨hg, fun hc => hnot (hc ▸ hg)⟩
      · rintro (⟨hg, -⟩ | ⟨rfl, -⟩)
        · exact .inr hg
        · exact .inl rfl
    · rw [if_neg h1]
      exact h.setPage rfl (by show (m.pages f).pinCount - 1 = 0 ↔ _; omega)

theorem dropPin_pages : (m.dropPin id f).2.pages =
    Function.update m.pages f { m.pages f with pinCount := (m.pages f).pinCount - 1 } := by
  unfold BufferPool.dropPin
  split
  · next h0 =>
      have hsame : ({ m.pages f with pinCount := (m.pages f).pinCount - 1 } : Page α) = m.pages f := by
        rw [show (m.pages f).pinCount - 1 = (m.pages f).pinCount by omega]
      rw [hsame, Function.update_eq_self]
  · split
    · next h1 =>
        rw [h1]
        unfold BufferPool.lruUnpin
        split
        · rfl
        · split <;> rfl
    · rfl

theorem dropPin_fields (m : BufferPool α) (id : PageId) (f : FrameId) : (m.dropPin id f).2.disk = m.disk ∧
    (m.dropPin id f).2.fileLen = m.fileLen ∧
    (m.dropPin id f).2.pageIoInflight = m.pageIoInflight ∧
    (m.dropPin id f).2.frameIoInflight = m.frameIoInflight := by
  unfold BufferPool.dropPin BufferPool.lruUnpin
  repeat' split
  all_goals exact ⟨rfl, rfl, rfl, rfl⟩

theorem Good.dropPin (h : Good m place ok kept owed) (hf : place f = .resident id) :
    Good (m.dropPin id f).2 place ok kept owed := by
  obtain ⟨hdisk, hlen, hpio, hfio⟩ := dropPin_fields m id f
  refine ⟨⟨h.settled.wf.dropPin hf, h.settled.places, ?_, ?_⟩, ?_⟩
  · rw [hpio]; exact h.settled.pageIo
  · rw [hfio]; exact h.settled.frameIo
  · exact (h.stored.setResident (p := { m.pages f with pinCount := (m.pages f).pinCount - 1 }) hf
      (h.stored.data id f hf) (h.stored.clean id f hf)).congr dropPin_pages hdisk hlen

/-- `unpin_page`: a dirty unpin settles what its page owes. -/
theorem unpinPage_spec (h : Good m place ok kept owed) (id : PageId) (d : Bool) :
    Good (m.unpinPage id d).2 place ok kept (fun g => owed g ∧ (place g = .resident id → d = false)) ∧
      (∀ g, place g ≠ .resident id → (m.unpinPage id d).2.pages g = m.pages g) ∧
      ∀ f, place f = .resident id →
        ((m.unpinPage id d).2.pages f).pinCount = (m.pages f).pinCount - 1 := by
  unfold BufferPool.unpinPage
  cases hl : m.pageTable.lookup id with
  | none =>
      have hid := h.settled.wf.lookup_none.1 hl
      refine ⟨⟨h.settled, h.stored.mono (fun g ho => ⟨ho, fun hg => absurd hg (hid g)⟩) fun _ hp => hp⟩,
        fun g _ => rfl, fun f hf => absurd hf (hid f)⟩
  | some f =>
      have hf : place f = .resident id := (h.settled.wf.table id f).1 hl
      have hgood := (h.markDirty hf d).dropPin hf
      refine ⟨⟨hgood.settled, hgood.stored.mono (fun g ho => ⟨ho.1, fun hg => ho.2 ?_⟩) fun _ hp => hp⟩, ?_, ?_⟩
      · exact h.settled.wf.resident_inj hg hf
      · intro g hg
        have hgf : g ≠ f := by
          rintro rfl
          exact hg hf
        show ((m.markDirty f d).dropPin id f).2.pages g = _
        rw [dropPin_pages, Function.update_of_ne hgf]
        exact Function.update_of_ne hgf ..
      · intro g hg
        obtain rfl := h.settled.wf.resident_inj hg hf
        show (((m.markDirty g d).dropPin id g).2.pages g).pinCount = _
        rw [dropPin_pages, Function.update_self]
        show (Function.update m.pages g _ g).pinCount - 1 = _
        rw [Function.update_self]

/-! ## Writing pages out -/

theorem Good.mono {owed' : FrameId → Prop} (h : Good m place ok kept owed) (howed : ∀ f, owed f → owed' f) :
    Good m place ok kept owed' :=
  ⟨h.settled, h.stored.mono howed fun _ hp => hp⟩

/-- `flush_page` writes the page whether it is dirty or not, so that nothing is owed of it then. -/
theorem flushPage_spec (h : Good m place ok kept owed) (id : PageId) :
    Good (m.flushPage id).2 place ok kept (fun f => owed f ∧ place f ≠ .resident id) ∧
      (∀ g, ((m.flushPage id).2.pages g).pinCount = (m.pages g).pinCount ∧
        ((m.flushPage id).2.pages g).data = (m.pages g).data) ∧
      Has (m.flushPage id).2 ok kept id ∧ ∀ id', Has m ok kept id' → Has (m.flushPage id).2 ok kept id' := by
  unfold BufferPool.flushPage
  cases hl : m.pageTable.lookup id with
  | none =>
      have hid := h.settled.wf.lookup_none.1 hl
      exact ⟨h.mono fun f ho => ⟨ho, hid f⟩, fun g => ⟨rfl, rfl⟩, (h.stored.away id hid).resolve_right fun hc => hc,
        fun _ ho => ho⟩
  | some f =>
      have hf : place f = .resident id := (h.settled.wf.table id f).1 hl
      have hdata := h.stored.data id f hf
      have hself : Has (m.writePage id (m.pages f).data) ok kept id := has_writePage hdata
      have hw := (h.stored.writePage hdata).mono (fun _ ho => ho) (fun _ hp => hp.1)
      have hstored := hw.setResident (p := { m.pages f with isDirty := false }) hf hdata fun _ => .inl hself
      have hclean : (Function.update m.pages f { m.pages f with isDirty := false } f).isDirty = false := by
        rw [Function.update_self]
      refine ⟨⟨⟨(h.settled.wf.congr rfl rfl rfl rfl rfl : Wf (m.writePage id _) place).setPage rfl Iff.rfl,
        h.settled.places, h.settled.pageIo, h.settled.frameIo⟩, hstored.data, ?_, hstored.away⟩, ?_, hself, ?_⟩
      · intro id' g hg hc
        by_cases hid : id' = id
        · subst hid
          exact .inl hself
        · refine (hstored.clean id' g hg hc).imp_right fun ho => ⟨ho, fun hres => hid ?_⟩
          exact Place.resident.inj (hg.symm.trans hres)
      · intro g
        show (Function.update m.pages f { m.pages f with isDirty := false } g).pinCount = _ ∧
          (Function.update m.pages f { m.pages f with isDirty := false } g).data = _
        by_cases hgf : g = f
        · subst hgf
          rw [Function.update_self]
          exact ⟨rfl, rfl⟩
        · rw [Function.update_of_ne hgf]
          exact ⟨rfl, rfl⟩
      · exact fun id' ho => ho.writePage hdata

theorem flushAllPages_spec (ids : List PageId) : ∀ {m : BufferPool α} {owed : FrameId → Prop},
    Good m place ok kept owed →
    Good (m.flushAllPages ids) place ok kept (fun f => owed f ∧ ∀ id ∈ ids, place f ≠ .resident id) ∧
      (∀ g, ((m.flushAllPages ids).pages g).pinCount = (m.pages g).pinCount) ∧
      (∀ id ∈ ids, Has (m.flushAllPages ids) ok kept id) ∧
      ∀ id, Has m ok kept id → Has (m.flushAllPages ids) ok kept id := by
  unfold BufferPool.flushAllPages
  induction ids with
  | nil =>
      intro m owed h
      exact ⟨h.mono fun f ho => ⟨ho, fun id hid => absurd hid List.not_mem_nil⟩, fun g => rfl,
        fun id hid => absurd hid List.not_mem_nil, fun _ ho => ho⟩
  | cons id ids ih =>
      intro m owed h
      obtain ⟨hgood, hpages, hself, hdisk⟩ := flushPage_spec h id
      obtain ⟨hgood', hpages', hselfs, hdisk'⟩ := ih hgood
      refine ⟨hgood'.mono ?_, fun g => (hpages' g).trans (hpages g).1, ?_, fun id' ho => hdisk' id' (hdisk id' ho)⟩
      · rintro f ⟨⟨ho, hf⟩, hfs⟩
        refine ⟨ho, fun id' hid' => ?_⟩
        rcases List.mem_cons.1 hid' with rfl | hid'
        · exact hf
        · exact hfs id' hid'
      · intro id' hid'
        rcases List.mem_cons.1 hid' with rfl | hid'
        · exact hdisk' id' hself
        · exact hselfs id' hid'

/-! ## Taking pages out -/

/-- A page leaves its frame and its content is on the disk. -/
theorem Stored.drop (h : Stored m place ok kept owed fun _ => False) (hf : place f = .resident id)
    (howed : ¬ owed f) (hpages : ∀ g ≠ f, m'.pages g = m.pages g)
    (hdisk : m'.disk = (if (m.pages f).isDirty then m.writePage id (m.pages f).data else m).disk)
    (hlen : m'.fileLen = (if (m.pages f).isDirty then m.writePage id (m.pages f).data else m).fileLen)
    {p : Place} (hp : ∀ id, p ≠ .resident id) :
    Stored m' (Function.update place f p) ok kept owed fun _ => False := by
  have hdata := h.data id f hf
  -- the pool with the page written and clean
  let m1 := (if (m.pages f).isDirty then m.writePage id (m.pages f).data else m).setPage f
    { m.pages f with isDirty := false }
  have h1 : Stored m1 place ok kept owed fun _ => False := by
    cases hd : (m.pages f).isDirty with
    | true =>
        have hw : Stored (m.writePage id (m.pages f).data) place ok kept owed fun _ => False :=
          (h.writePage hdata).mono (fun _ ho => ho) fun _ hp => hp.1
        have hm1 : m1 = (m.writePage id (m.pages f).data).setPage f { m.pages f with isDirty := false } := by
          simp [m1, hd]
        rw [hm1]
        exact hw.setResident hf hdata fun _ => .inl (has_writePage hdata)
    | false =>
        have hm1 : m1 = m.setPage f { m.pages f with isDirty := false } := by
          simp [m1, hd]
        rw [hm1]
        exact h.setResident hf hdata fun _ => h.clean id f hf hd
  have hm1p : m1.pages = Function.update m.pages f { m.pages f with isDirty := false } := by
    show Function.update (if (m.pages f).isDirty then m.writePage id (m.pages f).data else m).pages f _ = _
    split <;> rfl
  have hsame : ∀ g ≠ f, m'.pages g = m1.pages g := by
    intro g hg
    rw [hm1p, Function.update_of_ne hg]
    exact hpages g hg
  refine (h1.remove (fun _ _ => howed) hsame hdisk hlen hp).mono (fun _ ho => ho) ?_
  rintro id' (hc | ⟨-, hd⟩)
  · exact hc
  · rw [hm1p, Function.update_self] at hd
    cases hd

/-- The frame is taken out of the replacer and reset, and the key erased. -/
theorem Wf.takeOut [Zero α] (h : Wf m place) (hf : place f = .resident id) {d : PageId → α} {l : Nat → Nat} :
    Wf { (((m.lruPin (shardOfPage id) f).resetFrame f).eraseKey id) with disk := d, fileLen := l }
      (Function.update place f .reserved) := by
  refine (h.remove hf ?_ ((h.lru_nodup _).erase f) ⟨none, 0, false, 0⟩).congr rfl rfl rfl rfl rfl
  intro g
  rw [(h.lru_nodup _).mem_erase_iff, and_comm]

theorem writeBack_some (d : Bool) (c : α) : m.writeBack (some id) d c =
    { m with
      disk := (if d then m.writePage id c else m).disk
      fileLen := (if d then m.writePage id c else m).fileLen } := by
  cases d <;> rfl

theorem deletePage_spec [Zero α] (h : Good m place ok kept owed)
    (howed : ∀ g, owed g → 0 < (m.pages g).pinCount) (id : PageId) :
    ∃ place', Good (m.deletePage id).2 place' ok kept owed ∧
      ((m.deletePage id).2 = m ∧ place' = place ∨
        ∃ f, place f = .resident id ∧ (m.pages f).pinCount = 0 ∧ place' = Function.update place f .free ∧
          ∀ g ≠ f, (m.deletePage id).2.pages g = m.pages g) := by
  unfold BufferPool.deletePage
  cases hl : m.pageTable.lookup id with
  | none => exact ⟨place, h, .inl ⟨rfl, rfl⟩⟩
  | some f =>
      have hf : place f = .resident id := (h.settled.wf.table id f).1 hl
      simp only
      by_cases hpin : (m.pages f).pinCount = 0
      · rw [if_neg (not_not.2 hpin)]
        have hident := h.settled.wf.ident id f hf
        -- the pool with the frame taken out and the page written
        let m1 : BufferPool α := { (((m.lruPin (shardOfPage id) f).resetFrame f).eraseKey id) with
          disk := (if (m.pages f).isDirty then m.writePage id (m.pages f).data else m).disk
          fileLen := (if (m.pages f).isDirty then m.writePage id (m.pages f).data else m).fileLen }
        have hm1 : ((((m.lruPin (shardOfPage id) f).eraseKey id).resetFrame f).writeBack (m.pages f).id
            (m.pages f).isDirty (m.pages f).data) = m1 := by
          rw [hident]
          cases hd : (m.pages f).isDirty with
          | true => simp only [m1, hd]; rfl
          | false => simp only [m1, hd]; rfl
        rw [hm1]
        have hwf : Wf m1 (Function.update place f .reserved) := h.settled.wf.takeOut hf
        have hnot : ¬ owed f := fun ho => by
          have := howed f ho
          omega
        have hstored : Stored (m1.pushFree f) (Function.update place f .free) ok kept owed fun _ => False := by
          refine h.stored.drop hf hnot (fun g hg => ?_) ?_ ?_ fun id hc => (by cases hc)
          · exact Function.update_of_ne hg ..
          · rfl
          · rfl
        refine ⟨Function.update place f .free, ⟨⟨?_, ?_, h.settled.pageIo, h.settled.frameIo⟩, hstored⟩,
          .inr ⟨f, hf, hpin, rfl, ?_⟩⟩
        · have hpush := hwf.pushFree (Function.update_self ..)
          rwa [Function.update_idem] at hpush
        · intro g
          by_cases hg : g = f
          · subst hg
            rw [Function.update_self]
            exact fun hc => (by cases hc)
          · rw [Function.update_of_ne hg]
            exact h.settled.places g
        · intro g hg
          exact Function.update_of_ne hg ..
      · rw [if_pos hpin]
        exact ⟨place, h, .inl ⟨rfl, rfl⟩⟩

/-- In the middle of `delete_all_pages`: the frames `freed` are taken out. -/
structure Dropping (m : BufferPool α) (place : FrameId → Place) (ok : PageId → α → Prop) (kept : PageId → Prop)
    (owed : FrameId → Prop) (freed : List FrameId) : Prop where
  wf : Wf m place
  stored : Stored m place ok kept owed fun _ => False
  reserved : ∀ f, place f = .reserved ↔ f ∈ freed
  nodup : freed.Nodup
  pageIo : ∀ id, m.pageIoInflight id = false
  frameIo : ∀ f, m.frameIoInflight f = false

theorem dropEntry_spec [Zero α] {freed : List FrameId} (h : Dropping m place ok kept owed freed) (id : PageId)
    (howed : ∀ f, place f = .resident id → ¬ owed f) :
    ∃ place', Dropping (m.dropEntry id).2 place' ok kept owed (freed ++ (m.dropEntry id).1.toList) ∧
      (∀ g, place' g ≠ .resident id) ∧
      ∀ g, place' g = place g ∧ (m.dropEntry id).2.pages g = m.pages g ∨
        place g = .resident id ∧ place' g = .reserved := by
  unfold BufferPool.dropEntry
  cases hl : m.pageTable.lookup id with
  | none =>
      refine ⟨place, ?_, h.wf.lookup_none.1 hl, fun g => .inl ⟨rfl, rfl⟩⟩
      simp only [Option.toList_none, List.append_nil]
      exact h
  | some f =>
      have hf : place f = .resident id := (h.wf.table id f).1 hl
      simp only [Option.toList_some]
      rw [writeBack_some]
      refine ⟨Function.update place f .reserved, ⟨h.wf.takeOut hf, ?_, ?_, ?_, h.pageIo, h.frameIo⟩, ?_, ?_⟩
      · refine h.stored.drop hf (howed f hf) (fun g hg => ?_) ?_ ?_ fun id hc => (by cases hc)
        · exact Function.update_of_ne hg ..
        · rfl
        · rfl
      · intro g
        rw [List.mem_append, List.mem_singleton]
        by_cases hg : g = f
        · subst hg
          simp
        · rw [Function.update_of_ne hg, or_iff_left hg]
          exact h.reserved g
      · refine List.nodup_append.2 ⟨h.nodup, List.nodup_singleton f, ?_⟩
        rintro a ha b hb rfl
        rw [List.mem_singleton] at hb
        subst hb
        rw [(h.reserved a).2 ha] at hf
        cases hf
      · intro g
        by_cases hg : g = f
        · subst hg
          rw [Function.update_self]
          exact fun hc => (by cases hc)
        · rw [Function.update_of_ne hg]
          exact fun hc => hg (h.wf.resident_inj hc hf)
      · intro g
        by_cases hg : g = f
        · subst hg
          exact .inr ⟨hf, Function.update_self ..⟩
        · rw [Function.update_of_ne hg]
          exact .inl ⟨rfl, Function.update_of_ne hg ..⟩

theorem dropEntries_spec [Zero α] (ids : List PageId) : ∀ {m : BufferPool α} {place : FrameId → Place}
    {freed : List FrameId}, Dropping m place ok kept owed freed →
    (∀ id ∈ ids, ∀ f, place f = .resident id → ¬ owed f) →
    ∃ place', Dropping (m.dropEntries freed ids).2 place' ok kept owed (m.dropEntries freed ids).1 ∧
      (∀ id ∈ ids, ∀ g, place' g ≠ .resident id) ∧
      ∀ g, place' g = place g ∧ (m.dropEntries freed ids).2.pages g = m.pages g ∨
        ∃ id ∈ ids, place g = .resident id ∧ place' g = .reserved := by
  induction ids with
  | nil =>
      intro m place freed h _
      exact ⟨place, h, fun id hid => absurd hid List.not_mem_nil, fun g => .inl ⟨rfl, rfl⟩⟩
  | cons id ids ih =>
      intro m place freed h howed
      obtain ⟨place1, h1, hnot1, hch1⟩ := dropEntry_spec h id (howed id List.mem_cons_self)
      have howed1 : ∀ id' ∈ ids, ∀ f, place1 f = .resident id' → ¬ owed f := by
        intro id' hid' f hf
        rcases hch1 f with ⟨hp, -⟩ | ⟨-, hp⟩
        · exact howed id' (List.mem_cons_of_mem _ hid') f (hp ▸ hf)
        · rw [hp] at hf
          cases hf
      obtain ⟨place2, h2, hnot2, hch2⟩ := ih h1 howed1
      refine ⟨place2, h2, ?_, ?_⟩
      · intro id' hid' g
        rcases List.mem_cons.1 hid' with rfl | hid'
        · rcases hch2 g with ⟨hp, -⟩ | ⟨_, _, _, hp⟩
          · rw [hp]
            exact hnot1 g
          · rw [hp]
            exact fun hc => (by cases hc)
        · exact hnot2 id' hid' g
      · intro g
        rcases hch2 g with ⟨hp2, hg2⟩ | ⟨id', hid', hf, hp2⟩
        · rcases hch1 g with ⟨hp1, hg1⟩ | ⟨hf, hp1⟩
          · exact .inl ⟨hp2.trans hp1, hg2.trans hg1⟩
          · exact .inr ⟨id, List.mem_cons_self, hf, hp2.trans hp1⟩
        · rcases hch1 g with ⟨hp1, -⟩ | ⟨-, hp1⟩
          · exact .inr ⟨id', List.mem_cons_of_mem _ hid', hp1 ▸ hf, hp2⟩
          · rw [hp1] at hf
            cases hf

/-- The frames taken out go back to the free lists. -/
theorem pushFrees_spec (freed : List FrameId) : ∀ {m : BufferPool α} {place : FrameId → Place},
    Dropping m place ok kept owed freed →
    Good (freed.foldl BufferPool.pushFree m) (fun g => if g ∈ freed then .free else place g) ok kept owed ∧
      (freed.foldl BufferPool.pushFree m).pages = m.pages := by
  induction freed with
  | nil =>
      intro m place h
      simp only [List.not_mem_nil, if_false, List.foldl_nil, and_true]
      refine ⟨⟨h.wf, fun f hc => ?_, h.pageIo, h.frameIo⟩, h.stored⟩
      exact absurd ((h.reserved f).1 hc) List.not_mem_nil
  | cons f freed ih =>
      intro m place h
      obtain ⟨hnot, hnodup⟩ := List.nodup_cons.1 h.nodup
      have hf : place f = .reserved := (h.reserved f).2 List.mem_cons_self
      have hpush : Dropping (m.pushFree f) (Function.update place f .free) ok kept owed freed := by
        refine ⟨h.wf.pushFree hf, ?_, ?_, hnodup, h.pageIo, h.frameIo⟩
        · have hpages : ∀ g ≠ f, (m.pushFree f).pages g = m.pages g := fun _ _ => rfl
          have hno : ∀ id, place f ≠ .resident id := by
            rw [hf]
            exact fun id hc => (by cases hc)
          refine (h.stored.remove (p := .free) (fun id hc => absurd hc (hno id)) hpages rfl rfl
            fun id hc => (by cases hc)).mono (fun _ ho => ho) ?_
          rintro id (hc | ⟨hc, -⟩)
          · exact hc
          · exact absurd hc (hno id)
        · intro g
          by_cases hg : g = f
          · subst hg
            simp [hnot]
          · rw [Function.update_of_ne hg, h.reserved, List.mem_cons, or_iff_right hg]
      obtain ⟨hgood, hpages⟩ := ih hpush
      refine ⟨?_, hpages⟩
      have hplace : (fun g => if g ∈ f :: freed then Place.free else place g) =
          fun g => if g ∈ freed then Place.free else Function.update place f .free g := by
        funext g
        by_cases hg : g = f
        · subst hg
          simp [hnot]
        · simp [hg]
      rw [hplace]
      exact hgood

/-- `delete_all_pages` of pages of which nothing is owed. -/
theorem deleteAllPages_spec [Zero α] (h : Good m place ok kept owed) (ids : List PageId)
    (howed : ∀ id ∈ ids, ∀ f, place f = .resident id → ¬ owed f) :
    ∃ place', Good (m.deleteAllPages ids) place' ok kept owed ∧ (∀ id ∈ ids, ∀ g, place' g ≠ .resident id) ∧
      ∀ g, place' g = place g ∧ (m.deleteAllPages ids).pages g = m.pages g ∨
        ∃ id ∈ ids, place g = .resident id ∧ place' g = .free := by
  have hdrop : Dropping m place ok kept owed [] := by
    refine ⟨h.settled.wf, h.stored, fun f => ?_, List.nodup_nil, h.settled.pageIo, h.settled.frameIo⟩
    simp [h.settled.places f]
  obtain ⟨place1, h1, hnot1, hch1⟩ := dropEntries_spec ids hdrop howed
  obtain ⟨hgood, hpages⟩ := pushFrees_spec _ h1
  refine ⟨_, hgood, ?_, ?_⟩
  · intro id hid g
    show (if g ∈ _ then Place.free else place1 g) ≠ .resident id
    split
    · exact fun hc => (by cases hc)
    · exact hnot1 id hid g
  · intro g
    have hpg : (m.deleteAllPages ids).pages g = (m.dropEntries [] ids).2.pages g := congrFun hpages g
    rw [hpg]
    by_cases hg : g ∈ (m.dropEntries [] ids).1
    · right
      rw [if_pos hg]
      rcases hch1 g with ⟨hp, -⟩ | ⟨id, hid, hf, -⟩
      · rw [(h1.reserved g).2 hg] at hp
        exact absurd hp.symm (h.settled.places g)
      · exact ⟨id, hid, hf, rfl⟩
    · left
      rw [if_neg hg]
      rcases hch1 g with hp | ⟨_, _, _, hp⟩
      · exact hp
      · exact absurd ((h1.reserved g).1 hp) hg

end Rmdb.Buffer
