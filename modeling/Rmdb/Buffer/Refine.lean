import Rmdb.Buffer.Calls
import Rmdb.Lib.Run

/-!
# The buffer pool refines a page store

Holders fetch pages, change them while they hold them and give them back (`step`); flushing and
deleting comes in between.  `lastLeft` is what the holders left in each page, by the sequence
of calls alone.  In every run in which the holders keep to the rules (`Proper`) the pool
holds just that (`Sim`): a page fetched is the page last left, unless all frames are pinned or the
page is in no frame and past the end of its file, and then no holder has changed it
(`run_lastLeft`).
-/

namespace Rmdb.Buffer

open Rmdb.Lib (run Along run_cons)

/-- A page that someone has fetched and not yet unpinned. -/
structure Hold where
  handle : Nat
  id : PageId
  frame : FrameId
  changed : Bool
deriving DecidableEq, Repr

structure Clients (α : Type) where
  pool : BufferPool α
  holds : List Hold

inductive Call (α : Type) where
  /-- `fetch_page`; the page is held under a new handle -/
  | fetch (h : Nat) (id : PageId)
  | newPage (h : Nat) (fd : Nat)
  /-- a holder writes into the page it holds -/
  | change (h : Nat) (id : PageId) (c : α)
  /-- `unpin_page`, by the holder of the handle or by one who holds nothing -/
  | unpin (h : Nat) (id : PageId) (isDirty : Bool)
  | flush (id : PageId)
  | delete (id : PageId)
  | flushAll (fd : Nat) (ids : List PageId)
  | deleteAll (fd : Nat) (ids : List PageId)
deriving DecidableEq, Repr

namespace Clients

variable {α : Type}

def find (s : Clients α) (h : Nat) (id : PageId) : Option Hold :=
  s.holds.find? fun k => k.handle = h ∧ k.id = id

/-- The frame that `fetch_page` returns, if it returns one. -/
def returned : Except InternalError (Option FrameId) → Option FrameId
  | .ok f => f
  | .error _ => none

/-- What a call that returns a frame leaves. -/
def gets (s : Clients α) (h : Nat) (id : PageId) (f : Option FrameId) (m : BufferPool α) : Clients α :=
  match f with
  | none => { s with pool := m }
  | some f => ⟨m, ⟨h, id, f, false⟩ :: s.holds⟩

def setData (m : BufferPool α) (f : FrameId) (c : α) : BufferPool α :=
  m.setPage f { m.pages f with data := c }

def mark (holds : List Hold) (h : Nat) : List Hold :=
  holds.map fun k => if k.handle = h then { k with changed := true } else k

end Clients

open Clients

variable {α : Type} [Zero α]

def step (s : Clients α) : Call α → Option (Clients α)
  | .fetch h id => (s.pool.fetchPage id).map fun p => s.gets h id (returned p.1) p.2
  | .newPage h fd =>
      some (s.gets h (s.pool.nextPageId fd) (s.pool.newPage fd).1 (s.pool.newPage fd).2)
  | .change h id c => (s.find h id).map fun k => ⟨setData s.pool k.frame c, mark s.holds h⟩
  | .unpin h id d =>
      some ⟨(s.pool.unpinPage id d).2, s.holds.eraseP fun k => k.handle = h ∧ k.id = id⟩
  | .flush id => some { s with pool := (s.pool.flushPage id).2 }
  | .delete id => some { s with pool := (s.pool.deletePage id).2 }
  | .flushAll fd ids =>
      if s.pool.Lists fd ids then some { s with pool := s.pool.flushAllPages ids } else none
  | .deleteAll fd ids =>
      if s.pool.Lists fd ids then some { s with pool := s.pool.deleteAllPages ids } else none

/-- The rules: handles are not used twice at a time, `new_page` gets a page that has no content
yet, a holder that has changed its page unpins it dirty, who holds nothing unpins no page of
a holder, and a file is dropped when none of its pages is pinned. -/
def Proper [DecidableEq α] (s : Clients α) : Call α → Prop
  | .fetch h _ => ∀ k ∈ s.holds, k.handle ≠ h
  | .newPage h fd => (∀ k ∈ s.holds, k.handle ≠ h) ∧
      s.pool.pageTable.lookup (s.pool.nextPageId fd) = none ∧ s.pool.disk (s.pool.nextPageId fd) = 0
  | .unpin h id d =>
      match s.find h id with
      | some k => k.changed = true → d = true
      | none => ∀ k ∈ s.holds, k.id ≠ id
  | .deleteAll _ ids =>
      ∀ id ∈ ids, ∀ f ∈ s.pool.pageTable.lookup id, (s.pool.pages f).pinCount = 0
  | _ => True

instance [DecidableEq α] (s : Clients α) (c : Call α) : Decidable (Proper s c) := by
  cases c with
  | unpin h id d =>
      unfold Proper
      simp only
      cases s.find h id with
      | some k => exact inferInstanceAs (Decidable (_ → _))
      | none => exact inferInstanceAs (Decidable (∀ k ∈ s.holds, k.id ≠ id))
  | fetch h id => exact inferInstanceAs (Decidable (∀ k ∈ s.holds, k.handle ≠ h))
  | newPage h fd => exact inferInstanceAs (Decidable (_ ∧ _ ∧ _))
  | deleteAll fd ids =>
      exact inferInstanceAs
        (Decidable (∀ id ∈ ids, ∀ f ∈ s.pool.pageTable.lookup id, (s.pool.pages f).pinCount = 0))
  | change h id c => exact isTrue trivial
  | flush id => exact isTrue trivial
  | delete id => exact isTrue trivial
  | flushAll fd ids => exact isTrue trivial

/-- What the holders left in the pages, from the disk on. -/
def lastLeft (disk : PageId → α) (calls : List (Call α)) : PageId → α :=
  calls.foldl (fun left c =>
    match c with
    | .change _ id c => Function.update left id c
    | _ => left) disk

/-- The page that a holder changes by the call. -/
def Call.changes : Call α → Option PageId
  | .change _ id _ => some id
  | _ => none

def Clients.start (poolSize : Nat) (disk : PageId → α) (len no : Nat → Nat) : Clients α :=
  ⟨Buffer.start poolSize disk len no, []⟩

/-! ## The simulation -/

/-- A holder of the frame has changed it. -/
def Owed (holds : List Hold) (f : FrameId) : Prop := ∃ k ∈ holds, k.frame = f ∧ k.changed = true

/-- The pool holds the contents `left`, with those of the pages `kept` in a frame or in the file, and the
pins are the holders'. -/
structure Sim (s : Clients α) (place : FrameId → Place) (left : PageId → α) (kept : PageId → Prop) : Prop where
  good : Good s.pool place (fun id c => c = left id) kept (Owed s.holds)
  held : ∀ k ∈ s.holds, place k.frame = .resident k.id
  handles : (s.holds.map Hold.handle).Nodup
  pin : ∀ id f, place f = .resident id → (s.pool.pages f).pinCount = s.holds.countP fun k => k.frame = f

variable {s s' : Clients α} {place place' : FrameId → Place} {left : PageId → α} {kept : PageId → Prop}
  {id : PageId} {f : FrameId}

omit [Zero α] in
theorem Sim.owed (h : Sim s place left kept) (f : FrameId) (ho : Owed s.holds f) :
    0 < (s.pool.pages f).pinCount := by
  obtain ⟨k, hk, rfl, -⟩ := ho
  rw [h.pin k.id k.frame (h.held k hk)]
  exact List.countP_pos_iff.2 ⟨k, hk, by simp⟩

omit [Zero α] in
/-- An unpinned page is not held. -/
theorem Sim.frame_ne (h : Sim s place left kept) (hpin : ∀ id, place f = .resident id → (s.pool.pages f).pinCount = 0)
    (k : Hold) (hk : k ∈ s.holds) : k.frame ≠ f := by
  rintro rfl
  have h0 := hpin k.id (h.held k hk)
  rw [h.pin k.id k.frame (h.held k hk), List.countP_eq_zero] at h0
  exact h0 k hk (by simp)

/-- The frames that stay pinned stay where they are. -/
def Stays (s : Clients α) (place place' : FrameId → Place) : Prop :=
  ∀ id f, place f = .resident id → 0 < (s.pool.pages f).pinCount → place' f = .resident id

omit [Zero α] in
theorem Sim.gets (h : Sim s place left kept) {hd : Nat} (hfresh : ∀ k ∈ s.holds, k.handle ≠ hd)
    {m' : BufferPool α} (hgood : Good m' place' (fun id c => c = left id) kept (Owed s.holds))
    (hf : Fetched s.pool place id f m' place') :
    Sim (s.gets hd id (some f) m') place' left kept ∧ Stays s place place' := by
  have hplace := hf.placed
  have hwas : ∀ id', place f = .resident id' → id' ≠ id → (s.pool.pages f).pinCount = 0 := by
    intro id' hp hne
    rcases hf.was with ⟨hr, -⟩ | ⟨hr | ⟨old, hr, -, h0⟩, -⟩
    · exact absurd (Place.resident.inj (hp.symm.trans hr)) hne
    · rw [hp] at hr
      cases hr
    · exact h0
  refine ⟨⟨⟨hgood.settled, hgood.stored.mono ?_ fun _ hp => hp⟩, ?_, ?_, ?_⟩, ?_⟩
  · rintro g ⟨k, hk, hkf⟩
    exact ⟨k, List.mem_cons_of_mem _ hk, hkf⟩
  · intro k hk
    rcases List.mem_cons.1 hk with rfl | hk
    · rw [hplace]
      exact Function.update_self ..
    · have hkp := h.held k hk
      rw [hplace]
      by_cases hkf : k.frame = f
      · by_cases hid : k.id = id
        · rw [hkf, Function.update_self, hid]
        · have h0 := h.frame_ne (f := f) (fun id' hp => hwas id' hp ?_) k hk
          · exact absurd hkf h0
          · rw [hkf] at hkp
            exact Place.resident.inj (hp.symm.trans hkp) ▸ hid
      · rw [Function.update_of_ne hkf]
        exact hkp
  · show (hd :: s.holds.map Hold.handle).Nodup
    refine List.nodup_cons.2 ⟨fun hmem => ?_, h.handles⟩
    obtain ⟨k, hk, hkh⟩ := List.mem_map.1 hmem
    exact hfresh k hk hkh
  · intro id' g hg
    show (m'.pages g).pinCount = List.countP _ (⟨hd, id, f, false⟩ :: s.holds)
    rw [List.countP_cons]
    rw [hplace] at hg
    by_cases hgf : g = f
    · subst hgf
      rw [if_pos (by simp)]
      rcases hf.was with ⟨hr, hpin⟩ | ⟨hr, hpin⟩
      · rw [hpin, h.pin id g hr]
      · have hnone : s.holds.countP (fun k => k.frame = g) = 0 := by
          refine List.countP_eq_zero.2 fun k hk => ?_
          rw [decide_eq_true_eq]
          refine h.frame_ne (fun id' hp => ?_) k hk
          rcases hr with hr | ⟨old, hr, -, h0⟩
          · rw [hp] at hr
            cases hr
          · exact h0
        rw [hpin, hnone]
    · rw [Function.update_of_ne hgf] at hg
      rw [hf.others g hgf, if_neg (by simpa using Ne.symm hgf), h.pin id' g hg]
      rfl
  · intro id' g hg hpin
    rw [hplace]
    by_cases hgf : g = f
    · subst hgf
      rw [Function.update_self]
      by_cases hid : id' = id
      · rw [hid]
      · rw [hwas id' hg hid] at hpin
        omega
    · rw [Function.update_of_ne hgf]
      exact hg

omit [Zero α] in
/-- A step that leaves the holders and the pins of the frames they hold. -/
theorem Sim.of_good (h : Sim s place left kept) {m' : BufferPool α}
    (hgood : Good m' place' (fun id c => c = left id) kept (Owed s.holds)) (hstays : Stays s place place')
    (hpin : ∀ id g, place' g = .resident id → place g = .resident id ∧
      (m'.pages g).pinCount = (s.pool.pages g).pinCount) :
    Sim { s with pool := m' } place' left kept := by
  refine ⟨hgood, ?_, h.handles, ?_⟩
  · intro k hk
    refine hstays k.id k.frame (h.held k hk) ?_
    rw [h.pin k.id k.frame (h.held k hk)]
    exact List.countP_pos_iff.2 ⟨k, hk, by simp⟩
  · intro id g hg
    obtain ⟨hg, heq⟩ := hpin id g hg
    rw [heq]
    exact h.pin id g hg

omit [Zero α] in
/-- A frame that no one had pinned goes to a free list. -/
theorem Sim.givenBack (h : Sim s place left kept) {m' : BufferPool α}
    (hgood : Good m' (Function.update place f .free) (fun id c => c = left id) kept (Owed s.holds))
    (hback : GivenBack s.pool place f m') :
    Sim { s with pool := m' } (Function.update place f .free) left kept ∧
      Stays s place (Function.update place f .free) := by
  have hne : ∀ id g, place g = .resident id → 0 < (s.pool.pages g).pinCount → g ≠ f := by
    rintro id g hg hpin rfl
    rcases hback.was with hfree | ⟨old, -, h0⟩
    · rw [hg] at hfree
      cases hfree
    · omega
  have hstays : Stays s place (Function.update place f .free) := by
    intro id g hg hpin
    rw [Function.update_of_ne (hne id g hg hpin)]
    exact hg
  refine ⟨h.of_good hgood hstays ?_, hstays⟩
  intro id g hg
  have hgf : g ≠ f := by
    rintro rfl
    rw [Function.update_self] at hg
    cases hg
  rw [Function.update_of_ne hgf] at hg
  exact ⟨hg, by rw [hback.others g hgf]⟩

theorem mark_frames (holds : List Hold) (hd : Nat) (f : FrameId) :
    (mark holds hd).countP (fun k => k.frame = f) = holds.countP fun k => k.frame = f := by
  unfold mark
  rw [List.countP_map]
  congr 1
  funext k
  show decide ((if k.handle = hd then { k with changed := true } else k).frame = f) = _
  split <;> rfl

theorem mem_mark {holds : List Hold} {hd : Nat} {k : Hold} (hk : k ∈ mark holds hd) :
    ∃ k' ∈ holds, k.handle = k'.handle ∧ k.id = k'.id ∧ k.frame = k'.frame := by
  obtain ⟨k', hk', rfl⟩ := List.mem_map.1 hk
  refine ⟨k', hk', ?_⟩
  split <;> exact ⟨rfl, rfl, rfl⟩

theorem mark_owed {holds : List Hold} (hd : Nat) {g : FrameId} (ho : Owed holds g) : Owed (mark holds hd) g := by
  obtain ⟨k, hk, hkf, hkc⟩ := ho
  refine ⟨_, List.mem_map.2 ⟨k, hk, rfl⟩, ?_⟩
  split <;> exact ⟨hkf, by simp [hkc]⟩

omit [Zero α] in
theorem Sim.change (h : Sim s place left kept) {hd : Nat} {k : Hold} (hk : k ∈ s.holds) (hhd : k.handle = hd) (c : α) :
    Sim ⟨setData s.pool k.frame c, mark s.holds hd⟩ place (Function.update left k.id c)
      fun id => kept id ∨ id = k.id := by
  have hkp := h.held k hk
  have hst := h.good.stored
  have hset := h.good.settled
  have hmarked : Owed (mark s.holds hd) k.frame := by
    refine ⟨_, List.mem_map.2 ⟨k, hk, rfl⟩, ?_⟩
    rw [if_pos hhd]
    exact ⟨rfl, rfl⟩
  have hne : ∀ id g, place g = .resident id → g ≠ k.frame → id ≠ k.id := by
    rintro id g hg hgk rfl
    exact hgk (hset.wf.resident_inj hg hkp)
  have hsame : ∀ id, id ≠ k.id → Has s.pool (fun id c => c = left id) kept id →
      Has (setData s.pool k.frame c) (fun id c' => c' = Function.update left k.id c id)
        (fun id => kept id ∨ id = k.id) id := by
    rintro id hid ⟨hleft, hin⟩
    exact ⟨hleft.trans (Function.update_of_ne hid ..).symm, fun hk' => hin (hk'.resolve_right hid)⟩
  refine ⟨⟨⟨hset.wf.setPage rfl Iff.rfl, hset.places, hset.pageIo, hset.frameIo⟩, ?_, ?_, ?_⟩, ?_, ?_, ?_⟩
  · intro id g hg
    show (Function.update s.pool.pages k.frame { s.pool.pages k.frame with data := c } g).data = _
    by_cases hgk : g = k.frame
    · subst hgk
      rw [Function.update_self, ← Place.resident.inj (hkp.symm.trans hg), Function.update_self]
    · rw [Function.update_of_ne hgk, Function.update_of_ne (hne id g hg hgk)]
      exact hst.data id g hg
  · intro id g hg
    show (Function.update s.pool.pages k.frame { s.pool.pages k.frame with data := c } g).isDirty = false → _
    by_cases hgk : g = k.frame
    · subst hgk
      exact fun _ => .inr hmarked
    · rw [Function.update_of_ne hgk]
      exact fun hd' => (hst.clean id g hg hd').imp (hsame id (hne id g hg hgk)) (mark_owed hd)
  · intro id hid
    have hne : id ≠ k.id := by
      rintro rfl
      exact hid k.frame hkp
    exact (hst.away id hid).imp_left (hsame id hne)
  · intro k' hk'
    obtain ⟨k1, hk1, -, hid, hfr⟩ := mem_mark hk'
    rw [hid, hfr]
    exact h.held k1 hk1
  · have hmap : (mark s.holds hd).map Hold.handle = s.holds.map Hold.handle := by
      unfold mark
      rw [List.map_map]
      refine List.map_congr_left fun k' _ => ?_
      show (if k'.handle = hd then { k' with changed := true } else k').handle = _
      split <;> rfl
    rw [hmap]
    exact h.handles
  · intro id g hg
    show (Function.update s.pool.pages k.frame { s.pool.pages k.frame with data := c } g).pinCount = _
    rw [mark_frames, ← h.pin id g hg]
    by_cases hgk : g = k.frame
    · subst hgk
      rw [Function.update_self]
    · rw [Function.update_of_ne hgk]

omit [Zero α] in
/-- The holder of `hd` unpins its page, dirty if it has changed it. -/
theorem Sim.unpin (h : Sim s place left kept) {hd : Nat} {d : Bool} {k : Hold} (hfind : s.find hd id = some k)
    (hdirty : k.changed = true → d = true) :
    Sim ⟨(s.pool.unpinPage id d).2, s.holds.eraseP fun k => k.handle = hd ∧ k.id = id⟩ place left kept := by
  obtain ⟨hgood, hother, hpin⟩ := unpinPage_spec h.good id d
  obtain ⟨hk, as, bs, hsplit, has⟩ := List.find?_eq_some_iff_append.1 hfind
  obtain ⟨hkh, rfl⟩ := of_decide_eq_true hk
  have herase : s.holds.eraseP (fun k' => k'.handle = hd ∧ k'.id = k.id) = as ++ bs := by
    rw [hsplit, List.eraseP_append_right, List.eraseP_cons_of_pos (by simpa using hk)]
    intro b hb hc
    have := has b hb
    rw [hc] at this
    cases this
  have hmem : k ∈ s.holds := by
    rw [hsplit]
    exact List.mem_append_right _ List.mem_cons_self
  have hsub : ∀ k' ∈ as ++ bs, k' ∈ s.holds := by
    intro k' hk'
    rw [hsplit]
    rcases List.mem_append.1 hk' with hk' | hk'
    · exact List.mem_append_left _ hk'
    · exact List.mem_append_right _ (List.mem_cons_of_mem _ hk')
  have hkp := h.held k hmem
  rw [herase]
  refine ⟨⟨hgood.settled, hgood.stored.mono ?_ fun _ hp => hp⟩, fun k' hk' => h.held k' (hsub k' hk'), ?_, ?_⟩
  · rintro g ⟨⟨k', hk', hkf, hkc⟩, hd'⟩
    rw [hsplit] at hk'
    rcases List.mem_append.1 hk' with hk' | hk'
    · exact ⟨k', List.mem_append_left _ hk', hkf, hkc⟩
    · rcases List.mem_cons.1 hk' with rfl | hk'
      · rw [← hkf] at hd'
        rw [hdirty hkc] at hd'
        exact absurd (hd' hkp) (by decide)
      · exact ⟨k', List.mem_append_right _ hk', hkf, hkc⟩
  · have hnodup := h.handles
    rw [hsplit] at hnodup
    refine (List.Sublist.map _ ?_).nodup hnodup
    exact List.Sublist.append_left (List.sublist_cons_self k bs) as
  · intro id' g hg
    have hcount : s.holds.countP (fun k' => k'.frame = g) =
        (as ++ bs).countP (fun k' => k'.frame = g) + if k.frame = g then 1 else 0 := by
      rw [hsplit, List.countP_append, List.countP_append, List.countP_cons]
      simp only [decide_eq_true_eq]
      omega
    have hold := h.pin id' g hg
    rw [hcount] at hold
    show ((s.pool.unpinPage k.id d).2.pages g).pinCount = (as ++ bs).countP fun k' => k'.frame = g
    by_cases hgk : g = k.frame
    · subst hgk
      rw [if_pos rfl] at hold
      rw [hpin k.frame hkp, hold, Nat.add_sub_cancel]
    · rw [if_neg fun hc => hgk hc.symm] at hold
      rw [hother g fun hc => hgk (h.good.settled.wf.resident_inj hc hkp)]
      exact hold

omit [Zero α] in
/-- One who holds nothing unpins a page that no one holds. -/
theorem Sim.unpin_unheld (h : Sim s place left kept) {hd : Nat} {d : Bool} (hnone : ∀ k ∈ s.holds, k.id ≠ id) :
    Sim ⟨(s.pool.unpinPage id d).2, s.holds.eraseP fun k => k.handle = hd ∧ k.id = id⟩ place left kept := by
  obtain ⟨hgood, hother, hpin⟩ := unpinPage_spec h.good id d
  have herase : s.holds.eraseP (fun k => k.handle = hd ∧ k.id = id) = s.holds := by
    refine List.eraseP_of_forall_not fun k hk => ?_
    simp [hnone k hk]
  rw [herase]
  refine ⟨⟨hgood.settled, hgood.stored.mono (fun _ ho => ho.1) fun _ hp => hp⟩, h.held, h.handles, ?_⟩
  intro id' g hg
  show ((s.pool.unpinPage id d).2.pages g).pinCount = _
  by_cases hid : id' = id
  · subst hid
    have hzero : s.holds.countP (fun k => k.frame = g) = 0 := by
      refine List.countP_eq_zero.2 fun k hk => ?_
      rw [decide_eq_true_eq]
      rintro rfl
      exact hnone k hk (Place.resident.inj ((h.held k hk).symm.trans hg))
    rw [hpin g hg, h.pin id' g hg, hzero]
  · rw [hother g fun hc => hid (Place.resident.inj (hg.symm.trans hc))]
    exact h.pin id' g hg

/-! ## Steps and runs -/

/-- What a call leaves in the pages. -/
def leaves (left : PageId → α) (c : Call α) : PageId → α :=
  match c with
  | .change _ id c => Function.update left id c
  | _ => left

/-- The pages that holders have changed. -/
def touches (kept : PageId → Prop) (c : Call α) : PageId → Prop :=
  match c with
  | .change _ id _ => fun id' => kept id' ∨ id' = id
  | _ => kept

omit [Zero α] in
theorem foldl_touches (calls : List (Call α)) : ∀ {kept : PageId → Prop},
    calls.foldl touches kept id ↔ kept id ∨ ∃ c ∈ calls, c.changes = some id := by
  induction calls with
  | nil => simp
  | cons c calls ih =>
      intro kept
      rw [List.foldl_cons, ih]
      cases c <;> simp [touches, Call.changes, or_assoc, eq_comm]

/-- Each call keeps the simulation, and the pages that are pinned stay in their frames. -/
theorem Sim.step [DecidableEq α] (h : Sim s place left kept) {c : Call α} (hproper : Proper s c)
    (hstep : step s c = some s') : ∃ place', Sim s' place' (leaves left c) (touches kept c) ∧ Stays s place place' := by
  have hsame : Stays s place place := fun id f hf _ => hf
  cases c with
  | fetch hd id =>
      obtain ⟨⟨r, m⟩, hfetch, rfl⟩ := Option.map_eq_some_iff.1 hstep
      rcases fetchPage_spec h.good h.owed id with ⟨m', heq, hgood, hpages, -⟩ |
          ⟨f, m', place', heq, hgood, hf⟩ | ⟨f, m', heq, hgood, hback, -⟩
      · rw [heq] at hfetch
        cases hfetch
        exact ⟨place, h.of_good hgood hsame fun id g hg => ⟨hg, by rw [hpages]⟩, hsame⟩
      · rw [heq] at hfetch
        cases hfetch
        exact ⟨place', h.gets hproper hgood hf⟩
      · rw [heq] at hfetch
        cases hfetch
        exact ⟨_, h.givenBack hgood hback⟩
  | newPage hd fd =>
      obtain ⟨hhd, hfresh, hzero⟩ := hproper
      cases hstep
      have h0 : (0 : α) = left (s.pool.nextPageId fd) := by
        have hid := h.good.settled.wf.lookup_none.1 hfresh
        exact hzero.symm.trans ((h.good.stored.away _ hid).resolve_right fun hc => hc).1
      rcases newPage_spec h.good h.owed fd hfresh h0 with
        ⟨m', heq, hgood, hpages⟩ | ⟨f, m', place', heq, hgood, hf⟩
      · rw [heq]
        exact ⟨place, h.of_good hgood hsame fun id g hg => ⟨hg, by rw [hpages]⟩, hsame⟩
      · rw [heq]
        exact ⟨place', h.gets hhd hgood hf⟩
  | change hd id c =>
      obtain ⟨k, hfind, rfl⟩ := Option.map_eq_some_iff.1 hstep
      have hfind' : s.holds.find? (fun k => k.handle = hd ∧ k.id = id) = some k := hfind
      have hk := List.mem_of_find?_eq_some hfind'
      obtain ⟨hkh, rfl⟩ : k.handle = hd ∧ k.id = id := by simpa using List.find?_some hfind'
      exact ⟨place, h.change hk hkh c, hsame⟩
  | unpin hd id d =>
      cases hstep
      cases hfind : s.find hd id with
      | some k =>
          have hdirty : k.changed = true → d = true := by
            unfold Proper at hproper
            simpa only [hfind] using hproper
          exact ⟨place, h.unpin hfind hdirty, hsame⟩
      | none =>
          have hnone : ∀ k ∈ s.holds, k.id ≠ id := by
            unfold Proper at hproper
            simpa only [hfind] using hproper
          exact ⟨place, h.unpin_unheld hnone, hsame⟩
  | flush id =>
      cases hstep
      obtain ⟨hgood, hpages, -⟩ := flushPage_spec h.good id
      exact ⟨place, h.of_good (hgood.mono fun f ho => ho.1) hsame fun id g hg => ⟨hg, (hpages g).1⟩, hsame⟩
  | delete id =>
      cases hstep
      obtain ⟨place', hgood, ⟨heq, rfl⟩ | ⟨f, hf, hpin, rfl, hpages⟩⟩ := deletePage_spec h.good h.owed id
      · rw [heq]
        exact ⟨_, h, hsame⟩
      · have hstays : Stays s place (Function.update place f .free) := by
          intro id' g hg hp
          rw [Function.update_of_ne]
          · exact hg
          · rintro rfl
            omega
        refine ⟨_, h.of_good hgood hstays ?_, hstays⟩
        intro id' g hg
        have hgf : g ≠ f := by
          rintro rfl
          rw [Function.update_self] at hg
          cases hg
        rw [Function.update_of_ne hgf] at hg
        exact ⟨hg, by rw [hpages g hgf]⟩
  | flushAll fd ids =>
      obtain ⟨-, hstep⟩ := Option.ite_none_right_eq_some.1 hstep
      cases hstep
      obtain ⟨hgood, hpages, -⟩ := flushAllPages_spec ids h.good
      exact ⟨place, h.of_good (hgood.mono fun f ho => ho.1) hsame fun id g hg => ⟨hg, hpages g⟩, hsame⟩
  | deleteAll fd ids =>
      obtain ⟨-, hstep⟩ := Option.ite_none_right_eq_some.1 hstep
      cases hstep
      have hunpinned : ∀ id ∈ ids, ∀ f, place f = .resident id → (s.pool.pages f).pinCount = 0 := by
        intro id hid f hf
        exact hproper id hid f ((h.good.settled.wf.table id f).2 hf)
      have hnot : ∀ id ∈ ids, ∀ f, place f = .resident id → ¬ Owed s.holds f := by
        intro id hid f hf ho
        have h0 := hunpinned id hid f hf
        have := h.owed f ho
        omega
      obtain ⟨place', hgood, -, hch⟩ := deleteAllPages_spec h.good ids hnot
      have hstays : Stays s place place' := by
        intro id' g hg hp
        rcases hch g with ⟨heq, -⟩ | ⟨id, hid, hf, -⟩
        · rw [heq]
          exact hg
        · have := hunpinned id hid g hf
          omega
      refine ⟨place', h.of_good hgood hstays ?_, hstays⟩
      intro id' g hg
      rcases hch g with ⟨heq, hpages⟩ | ⟨_, _, _, heq⟩
      · exact ⟨heq ▸ hg, by rw [hpages]⟩
      · rw [heq] at hg
        cases hg

theorem Sim.start (poolSize : Nat) (disk : PageId → α) (len no : Nat → Nat) :
    Sim (Clients.start poolSize disk len no) (fun f => if f < poolSize then .free else .outside) disk
      fun _ => False := by
  have hplace : ∀ id f, (if f < poolSize then Place.free else .outside) ≠ .resident id := by
    intro id f
    split <;> exact fun hc => (by cases hc)
  refine ⟨⟨⟨Wf.start poolSize disk len no, fun f => ?_, fun _ => rfl, fun _ => rfl⟩, ?_, ?_, ?_⟩, ?_, ?_, ?_⟩
  · split <;> exact fun hc => (by cases hc)
  · exact fun id f hf => absurd hf (hplace id f)
  · exact fun id f hf => absurd hf (hplace id f)
  · exact fun id _ => .inl ⟨rfl, fun hc => hc.elim⟩
  · exact fun k hk => absurd hk List.not_mem_nil
  · exact List.nodup_nil
  · exact fun id f hf => absurd hf (hplace id f)

theorem Sim.run [DecidableEq α] (calls : List (Call α)) : ∀ {s : Clients α} {place : FrameId → Place}
    {left : PageId → α} {kept : PageId → Prop}, Sim s place left kept → Along Buffer.step Proper s calls →
    Lib.run Buffer.step s calls = some s' →
    ∃ place', Sim s' place' (calls.foldl leaves left) (calls.foldl touches kept) := by
  induction calls with
  | nil =>
      intro s place left kept h _ hrun
      cases hrun
      exact ⟨place, h⟩
  | cons c calls ih =>
      intro s place left kept h halong hrun
      obtain ⟨s1, hs1, hrest⟩ := Option.bind_eq_some_iff.1 hrun
      obtain ⟨place1, h1, -⟩ := h.step halong.1 hs1
      exact ih h1 (halong.2 s1 hs1) hrest

/-- Each frame is on one free list, once, or under one key; each replacer holds the unpinned
frames of its shard. -/
def Partitioned (m : BufferPool α) : Prop :=
  (∀ f < m.poolSize, Xor (∃ sh, f ∈ m.freeFrames sh) (∃ id, m.pageTable.lookup id = some f)) ∧
    (∀ f sh sh', f ∈ m.freeFrames sh → f ∈ m.freeFrames sh' → sh = sh') ∧
    (∀ sh, (m.freeFrames sh).Nodup) ∧
    (∀ f id id', m.pageTable.lookup id = some f → m.pageTable.lookup id' = some f → id = id') ∧
    (∀ sh, (m.replacer sh).Nodup) ∧
    ∀ sh f, f ∈ m.replacer sh ↔
      ∃ id, shardOfPage id = sh ∧ m.pageTable.lookup id = some f ∧ (m.pages f).pinCount = 0

omit [Zero α] in
theorem Settled.partitioned {m : BufferPool α} (h : Settled m place) : Partitioned m := by
  refine ⟨?_, ?_, h.wf.free_nodup, ?_, h.wf.lru_nodup, ?_⟩
  · intro f hf
    have hne := (h.wf.size f).1 hf
    cases hp : place f with
    | outside => exact absurd hp hne
    | reserved => exact absurd hp (h.places f)
    | free =>
        refine .inl ⟨⟨f % nshards, (h.wf.free _ f).2 ⟨hp, rfl⟩⟩, ?_⟩
        rintro ⟨id, hid⟩
        rw [h.wf.table, hp] at hid
        cases hid
    | resident id =>
        refine .inr ⟨⟨id, (h.wf.table id f).2 hp⟩, ?_⟩
        rintro ⟨sh, hsh⟩
        rw [h.wf.free, hp] at hsh
        cases hsh.1
  · intro f sh sh' hsh hsh'
    exact ((h.wf.free sh f).1 hsh).2.symm.trans ((h.wf.free sh' f).1 hsh').2
  · intro f id id' hid hid'
    rw [h.wf.table] at hid hid'
    exact Place.resident.inj (hid.symm.trans hid')
  · intro sh f
    rw [h.wf.lru]
    constructor
    · rintro ⟨id, hf, hsh, hpin⟩
      exact ⟨id, hsh, (h.wf.table id f).2 hf, hpin⟩
    · rintro ⟨id, hsh, hf, hpin⟩
      exact ⟨id, (h.wf.table id f).1 hf, hsh, hpin⟩

/-- In every run of calls that keep to the rules, over files of any lengths: `fetch_page` comes back.  A frame
it returns holds what was last left in the page; it returns none only when every frame holds a page that
is pinned; and it throws only for a page that is in no frame, past the end of its file and was never
changed by a holder.  The frames are where they should be, and a call that keeps to the rules leaves a
page that is pinned in its frame. -/
theorem run_lastLeft [DecidableEq α] (poolSize : Nat) (disk : PageId → α) (len no : Nat → Nat)
    (calls : List (Call α)) (hproper : Along step Proper (Clients.start poolSize disk len no) calls)
    (hrun : run step (Clients.start poolSize disk len no) calls = some s) :
    (∀ id, ∃ r m, s.pool.fetchPage id = some (r, m) ∧
        (∀ f, r = .ok (some f) → m.pageTable.lookup id = some f ∧ (m.pages f).data = lastLeft disk calls id) ∧
        (r = .ok none → ∀ f < s.pool.poolSize, ∃ id', s.pool.pageTable.lookup id' = some f ∧
          0 < (s.pool.pages f).pinCount) ∧
        ∀ e, r = .error e → e = readPageError ∧ s.pool.pageTable.lookup id = none ∧ ¬ s.pool.InFile id ∧
          ∀ c ∈ calls, c.changes ≠ some id) ∧
      (∀ k ∈ s.holds, (s.pool.pages k.frame).data = lastLeft disk calls k.id) ∧
      Partitioned s.pool ∧
      ∀ c s', Proper s c → step s c = some s' → ∀ id f, s.pool.pageTable.lookup id = some f →
        0 < (s.pool.pages f).pinCount → s'.pool.pageTable.lookup id = some f := by
  obtain ⟨place, h⟩ := (Sim.start poolSize disk len no).run calls hproper hrun
  have hleft : calls.foldl leaves disk = lastLeft disk calls := rfl
  rw [hleft] at h
  have hwf := h.good.settled.wf
  refine ⟨?_, ?_, h.good.settled.partitioned, ?_⟩
  · intro id
    rcases fetchPage_spec h.good h.owed id with ⟨m, heq, -, -, hpinned⟩ |
        ⟨f, m, place', heq, hgood, hf⟩ | ⟨f, m, heq, -, -, hnone, hpast, hkept⟩
    · refine ⟨.ok none, m, heq, fun f hf => (by cases hf), fun _ f hf => ?_, fun e he => (by cases he)⟩
      obtain ⟨id', hf', hpin⟩ := hpinned f hf
      exact ⟨id', (hwf.table id' f).2 hf', hpin⟩
    · refine ⟨.ok (some f), m, heq, fun f' hf' => ?_, fun hc => (by cases hc), fun e he => (by cases he)⟩
      cases hf'
      have hres : place' f = .resident id := by
        rw [hf.placed]
        exact Function.update_self ..
      exact ⟨(hgood.settled.wf.table id f).2 hres, hgood.stored.data id f hres⟩
    · refine ⟨.error readPageError, m, heq, fun f' hf' => (by cases hf'), fun hc => (by cases hc), fun e he => ?_⟩
      cases he
      refine ⟨rfl, hwf.lookup_none.2 hnone, hpast, fun c hc hch => ?_⟩
      exact hkept ((foldl_touches calls).2 (.inr ⟨c, hc, hch⟩))
  · intro k hk
    exact h.good.stored.data k.id k.frame (h.held k hk)
  · intro c s' hc hstep id f hf hpin
    obtain ⟨place', h', hstays⟩ := h.step hc hstep
    exact (h'.good.settled.wf.table id f).2 (hstays id f ((hwf.table id f).1 hf) hpin)

/-- A pool of one frame over a file of six pages: a page is made, changed, given back and taken out for
another, and a page past the end asked for. -/
def oneFrame : List (Call Nat) :=
  [.newPage 0 3, .change 0 ⟨3, 6⟩ 7, .unpin 0 ⟨3, 6⟩ true, .fetch 1 ⟨3, 5⟩, .unpin 1 ⟨3, 5⟩ false, .fetch 2 ⟨3, 8⟩]

theorem run_lastLeft_one_frame : ∃ s,
    run step (Clients.start 1 (fun _ => 0) (fun _ => 6) fun _ => 6) oneFrame = some s ∧
    s.pool.pageTable.lookup ⟨3, 6⟩ = none ∧
    ∃ m, s.pool.fetchPage ⟨3, 6⟩ = some (.ok (some 0), m) ∧ (m.pages 0).data = 7 := by
  have hvals : (run step (Clients.start 1 (fun _ => 0) (fun _ => 6) fun _ => 6) oneFrame).map (fun s =>
      (s.pool.pageTable.lookup ⟨3, 6⟩,
        (s.pool.fetchPage ⟨3, 6⟩).map fun p => returned p.1)) = some (none, some (some 0)) := by
    decide +kernel
  obtain ⟨s, hrun, hs⟩ := Option.map_eq_some_iff.1 hvals
  obtain ⟨hnone, hfetch⟩ := Prod.mk.inj hs
  obtain ⟨hback, -⟩ := run_lastLeft 1 (fun _ => 0) (fun _ => 6) (fun _ => 6) oneFrame (by decide +kernel) hrun
  obtain ⟨r, m, hrm, hdata, -⟩ := hback ⟨3, 6⟩
  rw [hrm] at hfetch
  obtain rfl : r = .ok (some 0) := by
    cases r with
    | ok f => rw [show f = some 0 from Option.some.inj hfetch]
    | error e => cases hfetch
  exact ⟨s, hrun, hnone, m, hrm, (hdata 0 rfl).2⟩

/-- A pool of one frame: two pages are made, and given back as they are. -/
def unchanged : List (Call Nat) :=
  [.newPage 0 3, .unpin 0 ⟨3, 0⟩ false, .newPage 1 3, .unpin 1 ⟨3, 1⟩ false]

/-- A page that was made and not changed is not written when it leaves its frame, and is past the end of
the file then. -/
theorem fetch_unwritten_throws : ¬ ∀ (poolSize : Nat) (calls : List (Call Nat)) (s : Clients Nat),
    Along step Proper (Clients.start poolSize (fun _ => 0) (fun _ => 0) fun _ => 0) calls →
    run step (Clients.start poolSize (fun _ => 0) (fun _ => 0) fun _ => 0) calls = some s →
    (∃ f < s.pool.poolSize, (s.pool.pages f).pinCount = 0) → ∀ id, ∃ f m,
      s.pool.fetchPage id = some (.ok (some f), m) ∧ (m.pages f).data = lastLeft (fun _ => 0) calls id := by
  intro hall
  have hvals : (run step (Clients.start 1 (fun _ => 0) (fun _ => 0) fun _ => 0) unchanged).map (fun s =>
      (s.pool.poolSize, (s.pool.pages 0).pinCount,
        (s.pool.fetchPage ⟨3, 0⟩).map fun p => returned p.1)) = some (1, 0, some none) := by
    decide +kernel
  obtain ⟨s, hrun, hs⟩ := Option.map_eq_some_iff.1 hvals
  obtain ⟨hsize, hs⟩ := Prod.mk.inj hs
  obtain ⟨hpin, hfetch⟩ := Prod.mk.inj hs
  obtain ⟨f, m, heq, -⟩ := hall 1 unchanged s (by decide +kernel) hrun
    ⟨0, by rw [hsize]; exact Nat.one_pos, hpin⟩ ⟨3, 0⟩
  rw [heq] at hfetch
  cases hfetch

end Rmdb.Buffer
