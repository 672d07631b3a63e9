import Rmdb.Index.Refine

/-!
# Closing and opening an index

`close_index` writes the file header and the pages, `open_index` reads them back; the page
counter of the descriptor is no part of the file.  The constructor of `IxIndexHandle` sets it
to one more than the descriptor's counter was, which is `num_pages_` right after
`create_index` on the same descriptor.  In every run in which each open finds such a counter
the index answers as the finite map, and the pages `create_node` obtains are new ones below
`num_pages_` (`run_reopened`).
-/

namespace Rmdb.Index

open IxIndexHandle Rmdb.Lib

section
variable {K : Type}

def ixFileHdrPage : Int := 0

/-- The fields of the file header that a call changes or that decide what it does. -/
structure IxFileHdr where
  numPages : Int
  rootPage : Int
  btreeOrder : Nat
  firstLeaf : Int
  lastLeaf : Int

/-- The file of an index on disk. -/
structure IxFile (K : Type) where
  hdr : IxFileHdr
  pages : Int → Option (IxPage K)

/-- `IxIndexHandle::IxIndexHandle`, where the counter of the descriptor is `nowPageNo`. -/
def openIndex (file : IxFile K) (nowPageNo : Int) : IxIndexHandle K where
  numPages := file.hdr.numPages
  rootPage := file.hdr.rootPage
  btreeOrder := file.hdr.btreeOrder
  firstLeaf := file.hdr.firstLeaf
  lastLeaf := file.hdr.lastLeaf
  nextPageNo := nowPageNo + 1
  cachedLeafNo := ixNoPage
  pinnedLeafNo := ixNoPage
  pinnedLeafPage := none
  pages := file.pages

def closeIndex (ih : IxIndexHandle K) : IxFile K where
  hdr := ⟨ih.numPages, ih.rootPage, ih.btreeOrder, ih.firstLeaf, ih.lastLeaf⟩
  pages := ih.pages

/-- One index, the counters `fd2pageno_` of the process, and the open handle with its
descriptor; while it is open its counter is the `nextPageNo` of the handle. -/
structure IxManager (K : Type) where
  fd2pageno : Nat → Int
  file : IxFile K
  opened : Option (Nat × IxIndexHandle K)

/-- After `create_index` through the descriptor `fd`. -/
def IxManager.created (btreeOrder fd : Nat) (fd2pageno : Nat → Int) : IxManager K where
  fd2pageno := Function.update fd2pageno fd (ixInitNumPages - 1)
  file := closeIndex (createIndex btreeOrder)
  opened := none

inductive IxEvent (K : Type) where
  | call (op : IxOp K)
  | close
  | open (fd : Nat)
  /-- The process ends and the next one starts. -/
  | restart
  /-- Another file has or had the descriptor: `set_fd2pageno` or `allocate_page`. -/
  | other (fd : Nat) (pageNo : Int)

/-- Calls and `close_index` are made on an open index, `open_index` on a closed one; another
file does not have the descriptor of the open index. -/
def IxManager.Enabled (s : IxManager K) : IxEvent K → Prop
  | .call _ | .close => s.opened.isSome
  | .open _ | .restart => s.opened.isNone
  | .other fd _ => s.opened.map Prod.fst ≠ some fd

instance (s : IxManager K) : DecidablePred s.Enabled
  | .call _ | .close => inferInstanceAs (Decidable (s.opened.isSome = true))
  | .open _ | .restart => inferInstanceAs (Decidable (s.opened.isNone = true))
  | .other fd _ => inferInstanceAs (Decidable (s.opened.map Prod.fst ≠ some fd))

/-- `open_index` finds the counter at the last page of the file. -/
def IxManager.Counts (s : IxManager K) : IxEvent K → Prop
  | .open fd => s.fd2pageno fd + 1 = s.file.hdr.numPages
  | _ => True

instance (s : IxManager K) : DecidablePred s.Counts
  | .open fd => inferInstanceAs (Decidable (s.fd2pageno fd + 1 = s.file.hdr.numPages))
  | .call _ | .close | .restart | .other _ _ => isTrue trivial

/-- The page numbers `create_node` obtains in the call that leads from `s` to `s'`:
`allocate_page` returns the counter and adds one to it, nothing else in a call moves it. -/
def createdPages (s s' : IxIndexHandle K) : List Int :=
  (List.range (s'.nextPageNo - s.nextPageNo).toNat).map fun i : Nat => s.nextPageNo + i

/-- The nodes of the tree: the root, and the children of internal pages. -/
inductive IsNode (s : IxIndexHandle K) : Int → Prop
  | root : IsNode s s.rootPage
  | child {p : Int} {pg : IxPage K} {e : K × Rid} : IsNode s p → s.pages p = some pg →
      pg.isLeaf = false → e ∈ pg.slots → IsNode s e.2.pageNo

variable [LinearOrder K] [Inhabited K]

/-- The state after the event; `none` if it is refused or a page is missing. -/
def IxManager.step (s : IxManager K) : IxEvent K → Option (IxManager K)
  | .call op => s.opened.bind fun (fd, ih) =>
      (op.apply ih).map fun ih => { s with opened := some (fd, ih) }
  | .close => s.opened.map fun (fd, ih) =>
      ⟨Function.update s.fd2pageno fd ih.nextPageNo, closeIndex ih, none⟩
  | .open fd => some { s with opened := some (fd, openIndex s.file (s.fd2pageno fd)) }
  | .restart => some { s with fd2pageno := fun _ => 0 }
  | .other fd pageNo => some { s with fd2pageno := Function.update s.fd2pageno fd pageNo }

/-- The map that the calls drive. -/
def IxEvent.applyMap (m : K → Option Rid) : IxEvent K → K → Option Rid
  | .call op => op.applyMap m
  | _ => m

/-! ## The nodes -/

omit [LinearOrder K] [Inhabited K] in
theorem mem_of_mem_view {s : IxIndexHandle K} [Inhabited K] {l : List Int} {e : K × Rid}
    (he : e ∈ view s l) : e.2.pageNo ∈ l := by
  obtain ⟨q, hq, rfl⟩ := List.mem_map.1 he
  exact hq

omit [LinearOrder K] in
theorem Up.root_mem {s : IxIndexHandle K} : ∀ {ls : List (List Int)} {l : List Int},
    Up s (view s l) ls → s.rootPage ∈ l ++ ls.flatten := by
  intro ls
  induction ls with
  | nil =>
      rintro l ⟨k, hk, -⟩
      have : (k, childRid s.rootPage) ∈ view s l := by simp [hk]
      have := mem_of_mem_view this
      simpa [childRid] using this
  | cons m ls ih =>
      rintro l ⟨-, -, hup⟩
      have := ih hup
      rw [List.flatten_cons]
      exact List.mem_append_right _ this

omit [LinearOrder K] in
/-- The children of the pages of the upper levels are pages of the level below. -/
theorem Up.child_mem {s : IxIndexHandle K} : ∀ {ls : List (List Int)} {l : List Int},
    Up s (view s l) ls → ∀ p ∈ ls.flatten, ∀ e ∈ slotsAt s p, e.2.pageNo ∈ l ++ ls.flatten := by
  intro ls
  induction ls with
  | nil =>
      intro l _ p hp
      cases hp
  | cons m ls ih =>
      rintro l ⟨hcat, -, hup⟩ p hp e he
      rw [List.flatten_cons] at hp ⊢
      rcases List.mem_append.1 hp with hp | hp
      · have : e ∈ view s l := hcat ▸ mem_cat.2 ⟨p, hp, he⟩
        exact List.mem_append_left _ (mem_of_mem_view this)
      · exact List.mem_append_right _ (ih hup p hp e he)

theorem Tree.mem_of_isNode {s : IxIndexHandle K} {l : List Int} {ls : List (List Int)}
    (t : Tree s l ls) {p : Int} (hp : IsNode s p) : p ∈ l ++ ls.flatten := by
  induction hp with
  | root => exact t.up.root_mem
  | child _ hpg hleaf he ih =>
      rcases List.mem_append.1 ih with hl | hls
      · obtain ⟨pg, hpg', hleaf'⟩ := t.leaves.leaf _ hl
        rw [hpg] at hpg'
        cases hpg'
        rw [hleaf] at hleaf'
        cases hleaf'
      · exact t.up.child_mem _ hls _ (slotsAt_eq hpg ▸ he)

/-- The pages a call obtains are no header, no node of the tree and below `num_pages_` as the
`i`-th `create_node` of the call has left it. -/
def FreshPages (s s' : IxIndexHandle K) : Prop :=
  ∀ (i : Nat) (p : Int), (createdPages s s')[i]? = some p →
    p ≠ ixFileHdrPage ∧ p ≠ ixLeafHeaderPage ∧ ¬ IsNode s p ∧ p < s.numPages + i + 1

theorem Tree.freshPages {s : IxIndexHandle K} {l : List Int} {ls : List (List Int)}
    (t : Tree s l ls) (s' : IxIndexHandle K) : FreshPages s s' := by
  intro i p hp
  obtain rfl : s.nextPageNo + i = p := by
    rw [createdPages, List.getElem?_map, Option.map_eq_some_iff] at hp
    obtain ⟨j, hj, rfl⟩ := hp
    obtain ⟨_, rfl⟩ := List.getElem?_eq_some_iff.1 hj
    rw [List.getElem_range]
  have hroot := t.alloc.range _ t.up.root_mem
  have hcount := t.alloc.counted
  refine ⟨?_, ?_, fun hnode => ?_, ?_⟩
  · simp only [ixFileHdrPage]
    omega
  · simp only [ixLeafHeaderPage]
    omega
  · have := t.alloc.range _ (t.mem_of_isNode hnode)
    omega
  · omega

/-! ## Events -/

/-- The file keeps what the handle represents, and an open that finds the right counter
represents it again. -/
theorem Represents.reopen {s : IxIndexHandle K} {m : K → Option Rid} (h : Represents s m) :
    Represents (openIndex (closeIndex s) (s.numPages - 1)) m := by
  obtain ⟨l, ls, t, hm⟩ := h
  have hnext : s.numPages - 1 + 1 = s.nextPageNo := by
    have := t.alloc.counted
    omega
  refine ⟨l, ls, ⟨t.order, ?_, t.sized, ?_, ?_, ?_⟩, hm⟩
  · exact ⟨t.leaves.leaf, t.leaves.sorted, t.leaves.header,
      t.leaves.ring.congr (fun _ _ => rfl) (fun _ _ => rfl), t.leaves.first, t.leaves.last⟩
  · exact t.up.frame rfl rfl (fun _ _ => rfl) (fun _ _ => rfl)
  · refine ⟨t.alloc.nodup, fun p hp => ?_, t.alloc.isSome, ?_⟩
    · show 2 ≤ p ∧ p < s.numPages - 1 + 1
      rw [hnext]
      exact t.alloc.range p hp
    · show s.numPages = s.numPages - 1 + 1
      omega
  · intro p hp
    cases hp

/-- The open handle, or the file once it is opened, represents the map. -/
def IxManager.Keeps (s : IxManager K) (m : K → Option Rid) : Prop :=
  match s.opened with
  | some (_, ih) => Represents ih m
  | none => Represents (openIndex s.file (s.file.hdr.numPages - 1)) m

theorem IxManager.Keeps.step {s : IxManager K} {m : K → Option Rid} (h : s.Keeps m) {e : IxEvent K}
    (hen : s.Enabled e) (hc : s.Counts e) : ∃ s', s.step e = some s' ∧ s'.Keeps (e.applyMap m) := by
  cases e with
  | call op =>
      obtain ⟨⟨fd, ih⟩, ho⟩ := Option.isSome_iff_exists.1 hen
      simp only [Keeps, ho] at h
      obtain ⟨ih', hrun, h'⟩ := h.apply op
      exact ⟨{ s with opened := some (fd, ih') }, by simp [IxManager.step, ho, hrun], h'⟩
  | close =>
      obtain ⟨⟨fd, ih⟩, ho⟩ := Option.isSome_iff_exists.1 hen
      simp only [Keeps, ho] at h
      exact ⟨⟨Function.update s.fd2pageno fd ih.nextPageNo, closeIndex ih, none⟩,
        by simp [IxManager.step, ho], h.reopen⟩
  | «open» fd =>
      have ho : s.opened = none := Option.isNone_iff_eq_none.1 hen
      simp only [Keeps, ho] at h
      have hfd : s.fd2pageno fd = s.file.hdr.numPages - 1 := by
        have : s.fd2pageno fd + 1 = s.file.hdr.numPages := hc
        omega
      refine ⟨_, rfl, ?_⟩
      show Represents (openIndex s.file (s.fd2pageno fd)) m
      rwa [hfd]
  | restart => exact ⟨_, rfl, h⟩
  | other fd pageNo => exact ⟨_, rfl, h⟩

theorem IxManager.keeps_created {o : Nat} (ho : 2 < o) (fd : Nat) (fd2pageno : Nat → Int) :
    (IxManager.created o fd fd2pageno : IxManager K).Keeps fun _ => none :=
  (represents_createIndex ho).reopen

end

/-- After any calls with the index closed and opened between them, where each open finds the
counter of its descriptor at the last page of the file: the index answers as the map of the
calls, and whatever call comes next obtains fresh pages. -/
theorem run_reopened (cols : List IxCol) (btreeOrder : Nat) (ho : 2 < btreeOrder) (fd : Nat)
    (fd2pageno : Nat → Int) (events : List (IxEvent (IxKey cols)))
    (halong : Along IxManager.step (fun s e => s.Enabled e ∧ s.Counts e)
      (IxManager.created btreeOrder fd fd2pageno) events) :
    ∃ s, run IxManager.step (IxManager.created btreeOrder fd fd2pageno) events = some s ∧
      ∀ fd' ih, s.opened = some (fd', ih) →
        (∀ k, ih.getValue k = some (events.foldl IxEvent.applyMap (fun _ => none) k)) ∧
        ∀ op : IxOp (IxKey cols), ∃ ih', op.apply ih = some ih' ∧ FreshPages ih ih' := by
  have hstep : ∀ (s : IxManager (IxKey cols)) m e, s.Keeps m → s.Enabled e ∧ s.Counts e →
      ∃ s', s.step e = some s' ∧ s'.Keeps (IxEvent.applyMap m e) :=
    fun s m e h hp => h.step hp.1 hp.2
  obtain ⟨s, hrun, h⟩ := run_sim_along hstep events _ _
    (IxManager.keeps_created ho fd fd2pageno) halong
  refine ⟨s, hrun, fun fd' ih hopen => ?_⟩
  simp only [IxManager.Keeps, hopen] at h
  refine ⟨h.getValue, fun op => ?_⟩
  obtain ⟨ih', hop, -⟩ := h.apply op
  obtain ⟨l, ls, t, -⟩ := h
  exact ⟨ih', hop, t.freshPages ih'⟩

/-- Five inserts, which split the root, then the index is closed and opened through another descriptor, whose counter another
file of five pages has left at 4; five more inserts split leaves and the root. -/
def splitBetweenOpens : List (IxEvent (IxKey [.int])) :=
  .open 3 :: ((List.range 5).map fun n => .call (.insert (intKey n) ⟨1, n⟩)) ++ [.close, .other 4 4, .open 4] ++
    (List.range' 5 5).map fun n => .call (.insert (intKey n) ⟨1, n⟩)

theorem run_reopened_other_descriptor : ∃ s, run IxManager.step (IxManager.created 3 3 fun _ => 0) splitBetweenOpens = some s ∧
    ∀ fd ih, s.opened = some (fd, ih) → ih.getValue (intKey 0) = some (some ⟨1, 0⟩) ∧ ih.getValue (intKey 9) = some (some ⟨1, 9⟩) := by
  obtain ⟨s, hrun, h⟩ := run_reopened [.int] 3 (by decide) 3 (fun _ => 0) splitBetweenOpens (by decide +kernel)
  have h0 : splitBetweenOpens.foldl IxEvent.applyMap (fun _ => none) (intKey 0) = some ⟨1, 0⟩ := by decide +kernel
  have h9 : splitBetweenOpens.foldl IxEvent.applyMap (fun _ => none) (intKey 9) = some ⟨1, 9⟩ := by decide +kernel
  refine ⟨s, hrun, fun fd ih ho => ⟨?_, ?_⟩⟩
  · rw [(h fd ih ho).1 (intKey 0), h0]
  · rw [(h fd ih ho).1 (intKey 9), h9]

/-- The key of a `CHAR(512)` column that starts with the byte `n`. -/
def charKey (n : Nat) : IxKey [.string 512] :=
  ⟨UInt8.ofNat n :: List.replicate 511 0, by rw [List.length_cons, List.length_replicate]; rfl⟩

/-- Six inserts fill the root leaf, the index is closed, `between` happens, and it is opened
again through the same descriptor. -/
def filledAndReopened (between : List (IxEvent (IxKey [.string 512]))) :
    List (IxEvent (IxKey [.string 512])) :=
  .open 3 :: ((List.range 6).map fun n => .call (.insert (charKey n) ⟨1, n⟩)) ++
    .close :: between ++ [.open 3]

/-- `filledAndReopened` and the insert that splits the root. -/
def splitReopened (between : List (IxEvent (IxKey [.string 512]))) :
    List (IxEvent (IxKey [.string 512])) :=
  filledAndReopened between ++ [.call (.insert (charKey 6) ⟨1, 6⟩)]

/-- Opened again in the same process the counter is 4 where the file has 3 pages: the next
split obtains the pages 4 and 5, `num_pages_` becomes 5 and `fetch_node` refuses the root.
After a restart the next split obtains page 1, the leaf header. -/
theorem reopened_lost :
    Along IxManager.step IxManager.Enabled (IxManager.created 6 3 fun _ => 0) (splitReopened []) ∧
      ((run IxManager.step (IxManager.created 6 3 fun _ => 0) (splitReopened [])).bind fun s =>
        s.opened.map fun o => o.2.getValue (charKey 0)) = some none ∧
      (splitReopened []).foldl IxEvent.applyMap (fun _ => none) (charKey 0) = some ⟨1, 0⟩ ∧
    Along IxManager.step IxManager.Enabled (IxManager.created 6 3 fun _ => 0)
        (filledAndReopened [.restart]) ∧
      ((run IxManager.step (IxManager.created 6 3 fun _ => 0)
        (filledAndReopened [.restart])).bind fun s => s.opened.bind fun o =>
          (IxOp.apply o.2 (.insert (charKey 6) ⟨1, 6⟩)).map fun ih =>
            (createdPages o.2 ih).head?) = some (some ixLeafHeaderPage) := by
  decide +kernel

end Rmdb.Index
