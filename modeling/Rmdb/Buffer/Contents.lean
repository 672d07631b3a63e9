import Rmdb.Buffer.Frames

/-!
# What the frames and the disk hold

`ok id c` says that `c` will do as the content of page `id`, and the pages `kept` are those whose
file has to hold them whole.  In `Stored` a resident page has such a content in its frame, one that
is clean on the disk too unless a holder of the frame still owes it (`owed`), and one without a
frame has it on the disk unless a call under way has it to write (`pending`).
-/

namespace Rmdb.Buffer

variable {α : Type} {m m' : BufferPool α} {place : FrameId → Place} {ok ok' : PageId → α → Prop}
  {kept : PageId → Prop} {owed owed' : FrameId → Prop} {pending pending' : PageId → Prop} {id id' : PageId}
  {f : FrameId} {r : Reserved}

/-- The disk has a content of the page that will do, and the whole page if it is one of `kept`. -/
def Has (m : BufferPool α) (ok : PageId → α → Prop) (kept : PageId → Prop) (id : PageId) : Prop :=
  ok id (m.disk id) ∧ (kept id → m.InFile id)

theorem Has.congr (h : Has m ok kept id) (hdisk : m'.disk = m.disk) (hlen : m'.fileLen = m.fileLen) :
    Has m' ok kept id := by
  refine ⟨by rw [hdisk]; exact h.1, fun hk => ?_⟩
  show id.pageNo < m'.fileLen id.fd
  rw [hlen]
  exact h.2 hk

/-- When no page has to be whole, only the contents count. -/
theorem Has.of_disk (h : Has m ok (fun _ => False) id) (hdisk : ok id (m.disk id) → ok' id' (m'.disk id')) :
    Has m' ok' (fun _ => False) id' :=
  ⟨hdisk h.1, fun hk => hk.elim⟩

/-- A file gets no shorter by a write, and long enough for the page. -/
theorem inFile_writePage (m : BufferPool α) (id : PageId) (c : α) :
    (m.writePage id c).InFile id ∧ ∀ id', m.InFile id' → (m.writePage id c).InFile id' := by
  constructor
  · show id.pageNo < Function.update m.fileLen id.fd _ id.fd
    rw [Function.update_self]
    omega
  · intro id' h
    have hlt : id'.pageNo < m.fileLen id'.fd := h
    show id'.pageNo < Function.update m.fileLen id.fd _ id'.fd
    by_cases hfd : id'.fd = id.fd
    · rw [hfd] at hlt
      rw [hfd, Function.update_self]
      omega
    · rw [Function.update_of_ne hfd]
      exact hlt

theorem has_writePage {c : α} (hc : ok id c) : Has (m.writePage id c) ok kept id := by
  refine ⟨?_, fun _ => (inFile_writePage m id c).1⟩
  show ok id (Function.update m.disk id c id)
  rw [Function.update_self]
  exact hc

theorem Has.writePage {c : α} (h : Has m ok kept id') (hc : ok id c) : Has (m.writePage id c) ok kept id' := by
  by_cases hid : id' = id
  · subst hid
    exact has_writePage hc
  · refine ⟨?_, fun hk => (inFile_writePage m id c).2 id' (h.2 hk)⟩
    show ok id' (Function.update m.disk id c id')
    rw [Function.update_of_ne hid]
    exact h.1

structure Stored (m : BufferPool α) (place : FrameId → Place) (ok : PageId → α → Prop)
    (kept : PageId → Prop) (owed : FrameId → Prop) (pending : PageId → Prop) : Prop where
  data : ∀ id f, place f = .resident id → ok id (m.pages f).data
  clean : ∀ id f, place f = .resident id → (m.pages f).isDirty = false → Has m ok kept id ∨ owed f
  away : ∀ id, (∀ f, place f ≠ .resident id) → Has m ok kept id ∨ pending id

theorem Stored.congr (h : Stored m place ok kept owed pending) (hpages : m'.pages = m.pages)
    (hdisk : m'.disk = m.disk) (hlen : m'.fileLen = m.fileLen) : Stored m' place ok kept owed pending where
  data := by rw [hpages]; exact h.data
  clean := by
    rw [hpages]
    exact fun id f hf hc => (h.clean id f hf hc).imp_left fun ho => ho.congr hdisk hlen
  away := fun id hf => (h.away id hf).imp_left fun ho => ho.congr hdisk hlen

/-- The disk is changed, and what it had that will do still does. -/
theorem Stored.withDisk (h : Stored m place ok kept owed pending) (hpages : m'.pages = m.pages)
    (hdisk : ∀ id, Has m ok kept id → Has m' ok kept id) : Stored m' place ok kept owed pending where
  data := by rw [hpages]; exact h.data
  clean := by rw [hpages]; exact fun id f hf hc => (h.clean id f hf hc).imp_left (hdisk id)
  away := fun id hf => (h.away id hf).imp_left (hdisk id)

/-- More may be owed or to write. -/
theorem Stored.mono (h : Stored m place ok kept owed pending) (howed : ∀ f, owed f → owed' f)
    (hpending : ∀ id, pending id → pending' id) : Stored m place ok kept owed' pending' where
  data := h.data
  clean := fun id f hf hc => (h.clean id f hf hc).imp_right (howed f)
  away := fun id hf => (h.away id hf).imp_right (hpending id)

/-- No page has to be whole in its file. -/
theorem Stored.forget (h : Stored m place ok kept owed pending) : Stored m place ok (fun _ => False) owed pending where
  data := h.data
  clean := fun id f hf hc => (h.clean id f hf hc).imp_left fun ho => ⟨ho.1, fun hk => hk.elim⟩
  away := fun id hf => (h.away id hf).imp_left fun ho => ⟨ho.1, fun hk => hk.elim⟩

/-- A frame is changed that no page has. -/
theorem Stored.setTaken (h : Stored m place ok kept owed pending) (hf : ∀ id, place f ≠ .resident id) (p : Page α) :
    Stored (m.setPage f p) place ok kept owed pending := by
  have hne : ∀ id g, place g = .resident id → Function.update m.pages f p g = m.pages g := by
    intro id g hg
    refine Function.update_of_ne ?_ ..
    rintro rfl
    exact hf id hg
  refine ⟨?_, ?_, h.away⟩
  · intro id g hg
    show ok id (Function.update m.pages f p g).data
    rw [hne id g hg]
    exact h.data id g hg
  · intro id g hg
    show (Function.update m.pages f p g).isDirty = false → _
    rw [hne id g hg]
    exact h.clean id g hg

/-- A content that will do is written. -/
theorem Stored.writePage (h : Stored m place ok kept owed pending) {c : α} (hc : ok id c) :
    Stored (m.writePage id c) place ok kept owed fun id' => pending id' ∧ id' ≠ id := by
  refine ⟨h.data, fun id' g hg hclean => (h.clean id' g hg hclean).imp_left fun ho => ho.writePage hc, ?_⟩
  intro id' hg
  by_cases hid : id' = id
  · subst hid
    exact .inl (has_writePage hc)
  · exact (h.away id' hg).imp (fun ho => ho.writePage hc) fun hp => ⟨hp, hid⟩

/-- A page goes to a frame that was taken. -/
theorem Stored.insert (h : Stored m place ok kept owed pending) {p : Page α} (hdata : ok id p.data) (hclean : p.isDirty = false → Has m ok kept id ∨ owed f)
    (hf : ∀ id, place f ≠ .resident id) :
    Stored { m.setPage f p with pageTable := m.pageTable.insert id f } (Function.update place f (.resident id))
      ok kept owed pending := by
  have hset := h.setTaken hf p
  refine ⟨?_, ?_, ?_⟩
  · intro id' g hg
    show ok id' (Function.update m.pages f p g).data
    by_cases hgf : g = f
    · subst hgf
      rw [Function.update_self] at hg ⊢
      cases hg
      exact hdata
    · rw [Function.update_of_ne hgf] at hg
      exact hset.data id' g hg
  · intro id' g hg
    show (Function.update m.pages f p g).isDirty = false → Has m ok kept id' ∨ owed g
    by_cases hgf : g = f
    · subst hgf
      rw [Function.update_self] at hg ⊢
      cases hg
      exact hclean
    · rw [Function.update_of_ne hgf] at hg
      exact hset.clean id' g hg
  · intro id' hg
    refine h.away id' fun g hg' => ?_
    by_cases hgf : g = f
    · exact hf id' (hgf ▸ hg')
    · exact hg g (by rw [Function.update_of_ne hgf]; exact hg')

/-- What is resident beside a frame without a page was so before. -/
theorem resident_of_update {p : Place} {g : FrameId} (hp : ∀ id, p ≠ .resident id)
    (hg : Function.update place f p g = .resident id) : g ≠ f ∧ place g = .resident id := by
  have hgf : g ≠ f := by
    rintro rfl
    rw [Function.update_self] at hg
    exact hp id hg
  rw [Function.update_of_ne hgf] at hg
  exact ⟨hgf, hg⟩

/-- A page leaves its frame.  Unless it is clean, the disk does not have it. -/
theorem Stored.remove (h : Stored m place ok kept owed pending)
    (howed : ∀ id, place f = .resident id → ¬ owed f) (hpages : ∀ g ≠ f, m'.pages g = m.pages g)
    (hdisk : m'.disk = m.disk) (hlen : m'.fileLen = m.fileLen) {p : Place} (hp : ∀ id, p ≠ .resident id) :
    Stored m' (Function.update place f p) ok kept owed fun id =>
      pending id ∨ place f = .resident id ∧ (m.pages f).isDirty = true := by
  refine ⟨?_, ?_, ?_⟩
  · intro id g hg
    obtain ⟨hgf, hg⟩ := resident_of_update hp hg
    rw [hpages g hgf]
    exact h.data id g hg
  · intro id g hg
    obtain ⟨hgf, hg⟩ := resident_of_update hp hg
    rw [hpages g hgf]
    exact fun hc => (h.clean id g hg hc).imp_left fun ho => ho.congr hdisk hlen
  · intro id hg
    by_cases hfid : place f = .resident id
    · cases hd : (m.pages f).isDirty with
      | true => exact .inr (.inr ⟨hfid, rfl⟩)
      | false => exact .inl (((h.clean id f hfid hd).resolve_right (howed id hfid)).congr hdisk hlen)
    · refine (h.away id fun g hg' => ?_).imp (fun ho => ho.congr hdisk hlen) .inl
      by_cases hgf : g = f
      · exact hfid (hgf ▸ hg')
      · exact hg g (by rw [Function.update_of_ne hgf]; exact hg')

/-- A resident page is given a content that will do. -/
theorem Stored.setResident (h : Stored m place ok kept owed pending) (hf : place f = .resident id) {p : Page α}
    (hdata : ok id p.data) (hclean : p.isDirty = false → Has m ok kept id ∨ owed f) :
    Stored (m.setPage f p) place ok kept owed pending := by
  refine ⟨?_, ?_, h.away⟩
  · intro id' g hg
    show ok id' (Function.update m.pages f p g).data
    by_cases hgf : g = f
    · subst hgf
      obtain rfl : id = id' := Place.resident.inj (hf.symm.trans hg)
      rw [Function.update_self]
      exact hdata
    · rw [Function.update_of_ne hgf]
      exact h.data id' g hg
  · intro id' g hg
    show (Function.update m.pages f p g).isDirty = false → Has m ok kept id' ∨ owed g
    by_cases hgf : g = f
    · subst hgf
      obtain rfl : id = id' := Place.resident.inj (hf.symm.trans hg)
      rw [Function.update_self]
      exact hclean
    · rw [Function.update_of_ne hgf]
      exact h.clean id' g hg

/-! ## Reserving and writing -/

/-- A call that reserves a frame has the page that was there to write, if it is dirty. -/
def Reserved.writes (r : Reserved) (id : PageId) : Prop := r.oldPageId = some id ∧ r.needFlush = true

theorem Taken.writes_iff (ht : Taken m place r m') (hid : r.writes id) :
    place r.frame = .resident id ∧ (m.pages r.frame).isDirty = true := by
  rcases ht.was with ⟨-, hold, -⟩ | ⟨id', hf, -, hold, hflush⟩
  · rw [hid.1] at hold
    cases hold
  · obtain rfl : id = id' := Option.some.inj (hid.1.symm.trans hold)
    exact ⟨hf, hflush.symm.trans hid.2⟩

theorem Stored.taken (h : Stored m place ok kept owed pending) (ht : Taken m place r m')
    (howed : ∀ id, place r.frame = .resident id → ¬ owed r.frame) :
    Stored m' (Function.update place r.frame .reserved) ok kept owed (fun id => pending id ∨ r.writes id) ∧
      ∀ id, r.writes id → ok id (m'.pages r.frame).data := by
  have hpages : ∀ g ≠ r.frame, m'.pages g = m.pages g := by
    intro g hg
    rw [ht.pages, Function.update_of_ne hg]
  refine ⟨(h.remove howed hpages ht.disk ht.fileLen (fun id hc => (by cases hc))).mono (fun _ hf => hf) ?_, ?_⟩
  · rintro id (hp | ⟨hf, hd⟩)
    · exact .inl hp
    · right
      rcases ht.was with ⟨hfree, -⟩ | ⟨id', hf', -, hold, hflush⟩
      · rw [hf] at hfree
        cases hfree
      · obtain rfl : id = id' := Place.resident.inj (hf.symm.trans hf')
        exact ⟨hold, hflush.trans hd⟩
  · intro id hid
    rw [ht.pages, Function.update_self]
    exact h.data id r.frame (ht.writes_iff hid).1

theorem Stored.writeOld (h : Stored m place ok kept owed fun id => pending id ∨ r.writes id)
    (hdata : ∀ id, r.writes id → ok id (m.pages r.frame).data) :
    Stored (m.writeOld r) place ok kept owed pending := by
  unfold BufferPool.writeOld BufferPool.writeBack
  cases hold : r.oldPageId with
  | none =>
      refine h.mono (fun _ hf => hf) ?_
      rintro id (hp | hid)
      · exact hp
      · rw [hid.1] at hold
        cases hold
  | some old =>
      cases hflush : r.needFlush with
      | false =>
          refine h.mono (fun _ hf => hf) ?_
          rintro id (hp | hid)
          · exact hp
          · rw [hid.2] at hflush
            cases hflush
      | true =>
          refine (h.writePage (hdata old ⟨hold, hflush⟩)).mono (fun _ hf => hf) ?_
          rintro id ⟨hp | hid, hne⟩
          · exact hp
          · exact absurd (Option.some.inj (hid.1.symm.trans hold)) hne

end Rmdb.Buffer
