import Rmdb.Index.Handle

/-!
# The tree as a list of levels

The pages of the tree are read level by level from the leaves up: a level is the list of
its pages from left to right, `cat` its entries in order, and the level above must hold
exactly one entry per page, with the first key of the page (`view`).  `Up s ks ls` says
that the levels `ls` are a well formed upper part of the tree over the entries `ks`.
-/

namespace Rmdb.Index

open IxIndexHandle

section Reading
variable {K : Type}

def slotsAt (s : IxIndexHandle K) (p : Int) : List (K × Rid) :=
  ((s.pages p).map IxPage.slots).getD []

def parentAt (s : IxIndexHandle K) (p : Int) : Int :=
  ((s.pages p).map IxPage.parent).getD 0

/-- The page without its parent field. -/
def coreAt (s : IxIndexHandle K) (p : Int) : Option (IxPage K) :=
  (s.pages p).map fun pg => pg.setParentPageNo 0

/-- The entries of a level. -/
def cat (s : IxIndexHandle K) (l : List Int) : List (K × Rid) := l.flatMap (slotsAt s)

def pagesOf (ks : List (K × Rid)) : List Int := ks.map fun e => e.2.pageNo

theorem slotsAt_eq {s : IxIndexHandle K} {p : Int} {pg : IxPage K} (h : s.pages p = some pg) :
    slotsAt s p = pg.slots := by simp [slotsAt, h]

theorem parentAt_eq {s : IxIndexHandle K} {p : Int} {pg : IxPage K} (h : s.pages p = some pg) :
    parentAt s p = pg.parent := by simp [parentAt, h]

theorem slotsAt_of_core {s s' : IxIndexHandle K} {p : Int} (h : coreAt s' p = coreAt s p) :
    slotsAt s' p = slotsAt s p := by
  simp only [coreAt, slotsAt] at h ⊢
  cases h1 : s.pages p <;> cases h2 : s'.pages p <;> simp_all [IxPage.setParentPageNo]

theorem slotsAt_of_pages {s s' : IxIndexHandle K} {p : Int} (h : s'.pages p = s.pages p) :
    slotsAt s' p = slotsAt s p := by simp [slotsAt, h]

theorem parentAt_of_pages {s s' : IxIndexHandle K} {p : Int} (h : s'.pages p = s.pages p) :
    parentAt s' p = parentAt s p := by simp [parentAt, h]

@[simp] theorem cat_nil (s : IxIndexHandle K) : cat s [] = [] := rfl

@[simp] theorem cat_cons (s : IxIndexHandle K) (p : Int) (l : List Int) :
    cat s (p :: l) = slotsAt s p ++ cat s l := rfl

@[simp] theorem cat_append (s : IxIndexHandle K) (a b : List Int) :
    cat s (a ++ b) = cat s a ++ cat s b := List.flatMap_append

theorem mem_cat {s : IxIndexHandle K} {l : List Int} {e : K × Rid} :
    e ∈ cat s l ↔ ∃ p ∈ l, e ∈ slotsAt s p := List.mem_flatMap

theorem cat_congr {s s' : IxIndexHandle K} {l : List Int}
    (h : ∀ p ∈ l, slotsAt s' p = slotsAt s p) : cat s' l = cat s l :=
  List.flatMap_congr h

variable [Inhabited K]

def firstKey (s : IxIndexHandle K) (p : Int) : K := ((slotsAt s p).getD 0 default).1

/-- What the level above holds for the pages of `l`. -/
def view (s : IxIndexHandle K) (l : List Int) : List (K × Rid) :=
  l.map fun p => (firstKey s p, childRid p)

theorem firstKey_eq {s : IxIndexHandle K} {p : Int} {pg : IxPage K} (h : s.pages p = some pg) :
    firstKey s p = pg.getKey 0 := by simp [firstKey, IxPage.getKey, slotsAt_eq h]

theorem firstKey_congr {s s' : IxIndexHandle K} {p : Int} (h : slotsAt s' p = slotsAt s p) :
    firstKey s' p = firstKey s p := by simp [firstKey, h]

@[simp] theorem view_nil (s : IxIndexHandle K) : view s [] = [] := rfl

@[simp] theorem view_cons (s : IxIndexHandle K) (p : Int) (l : List Int) :
    view s (p :: l) = (firstKey s p, childRid p) :: view s l := rfl

@[simp] theorem view_append (s : IxIndexHandle K) (a b : List Int) :
    view s (a ++ b) = view s a ++ view s b := List.map_append

theorem view_congr {s s' : IxIndexHandle K} {l : List Int}
    (h : ∀ p ∈ l, slotsAt s' p = slotsAt s p) : view s' l = view s l :=
  List.map_congr_left fun p hp => by rw [firstKey_congr (h p hp)]

@[simp] theorem pagesOf_view (s : IxIndexHandle K) (l : List Int) : pagesOf (view s l) = l := by
  simp [pagesOf, view, childRid, Function.comp_def]

omit [Inhabited K] in
@[simp] theorem pagesOf_append (a b : List (K × Rid)) :
    pagesOf (a ++ b) = pagesOf a ++ pagesOf b := List.map_append

omit [Inhabited K] in
@[simp] theorem pagesOf_cons (e : K × Rid) (l : List (K × Rid)) :
    pagesOf (e :: l) = e.2.pageNo :: pagesOf l := rfl

end Reading

/-! ## Writing pages -/

section Writing
variable {K : Type}

@[simp] theorem setNode_pages (s : IxIndexHandle K) (p q : Int) (pg : IxPage K) :
    (s.setNode p pg).pages q = if q = p then some pg else s.pages q := rfl

@[simp] theorem setNode_numPages (s : IxIndexHandle K) (p : Int) (pg : IxPage K) :
    (s.setNode p pg).numPages = s.numPages := rfl

@[simp] theorem setNode_nextPageNo (s : IxIndexHandle K) (p : Int) (pg : IxPage K) :
    (s.setNode p pg).nextPageNo = s.nextPageNo := rfl

@[simp] theorem setNode_rootPage (s : IxIndexHandle K) (p : Int) (pg : IxPage K) :
    (s.setNode p pg).rootPage = s.rootPage := rfl

@[simp] theorem setNode_lastLeaf (s : IxIndexHandle K) (p : Int) (pg : IxPage K) :
    (s.setNode p pg).lastLeaf = s.lastLeaf := rfl

@[simp] theorem setNode_getMaxSize (s : IxIndexHandle K) (p : Int) (pg : IxPage K) :
    (s.setNode p pg).getMaxSize = s.getMaxSize := rfl

theorem fetchNode_eq {s : IxIndexHandle K} {p : Int} (h0 : 0 ≤ p) (h1 : p < s.numPages) :
    s.fetchNode p = s.pages p := by
  simp only [fetchNode, ixNoPage]
  exact if_neg (by omega)

/-- All of `kids` get the parent `node`. -/
def reparent (s : IxIndexHandle K) (node : Int) (kids : List Int) : IxIndexHandle K :=
  { s with pages := fun p =>
      if p ∈ kids then (s.pages p).map fun pg => pg.setParentPageNo node else s.pages p }

@[simp] theorem reparent_pages (s : IxIndexHandle K) (node : Int) (kids : List Int)
    (p : Int) : (reparent s node kids).pages p =
      if p ∈ kids then (s.pages p).map fun pg => pg.setParentPageNo node else s.pages p := rfl

theorem reparent_nil (s : IxIndexHandle K) (node : Int) : reparent s node [] = s := by
  simp [reparent]

variable [Inhabited K]

theorem maintainChild_eq {s : IxIndexHandle K} {node c : Int} {pg : IxPage K} {i : Nat}
    (hn : s.pages node = some pg) (hleaf : pg.isLeaf = false) (hc : pg.valueAt i = c)
    (h0 : 0 ≤ c) (h1 : c < s.numPages) (hsome : (s.pages c).isSome) :
    s.maintainChild node i = some (reparent s node [c]) := by
  obtain ⟨cp, hcp⟩ := Option.isSome_iff_exists.1 hsome
  simp only [maintainChild, hn, Option.bind_eq_bind, Option.bind_some, hleaf, hc,
    fetchNode_eq h0 h1, hcp, Bool.false_eq_true, if_false]
  congr 1
  simp only [setNode, reparent]
  congr 1
  funext p
  by_cases hp : p = c
  · subst hp
    simp [hcp]
  · simp [hp]

omit [Inhabited K] in
theorem reparent_reparent_one (s : IxIndexHandle K) (node c : Int) (kids : List Int) :
    reparent (reparent s node kids) node [c] = reparent s node (kids ++ [c]) := by
  simp only [reparent]
  congr 1
  funext p
  by_cases hp : p = c <;> by_cases hk : p ∈ kids <;> cases hs : s.pages p <;>
    simp [hp, hk, IxPage.setParentPageNo] <;> simp_all

/-- The loop over the children reparents the `n` children from `first` on. -/
theorem maintainChildren_eq {s : IxIndexHandle K} {node : Int} {pg : IxPage K} {first n : Nat}
    (hn : s.pages node = some pg) (hleaf : pg.isLeaf = false)
    (hlen : first + n ≤ pg.slots.length)
    (hk : ∀ c ∈ pagesOf pg.slots, c ≠ node ∧ 0 ≤ c ∧ c < s.numPages ∧ (s.pages c).isSome) :
    s.maintainChildren node first n =
      some (reparent s node (pagesOf ((pg.slots.drop first).take n))) := by
  induction n with
  | zero => simp [maintainChildren, pagesOf, reparent_nil]
  | succ n ih =>
      have hlt : first + n < pg.slots.length := by omega
      have hmem : ∀ i, i < pg.slots.length → pg.valueAt i ∈ pagesOf pg.slots := by
        intro i hi
        simp only [IxPage.valueAt, IxPage.getRid, pagesOf]
        rw [List.getD_eq_getElem _ _ hi]
        exact List.mem_map.2 ⟨_, List.getElem_mem hi, rfl⟩
      obtain ⟨hne, h0, h1, hsome⟩ := hk _ (hmem _ hlt)
      have hstep : s.maintainChildren node first (n + 1) =
          (s.maintainChildren node first n).bind fun s => s.maintainChild node (first + n) := by
        simp [maintainChildren, List.range_succ, List.foldlM_append]
      have hnode : node ∉ pagesOf ((pg.slots.drop first).take n) := by
        intro hin
        obtain ⟨e, he, hen⟩ := List.mem_map.1 hin
        exact (hk node (List.mem_map.2 ⟨e, List.mem_of_mem_drop (List.mem_of_mem_take he), hen⟩)).1
          rfl
      have hlast : (reparent s node (pagesOf ((pg.slots.drop first).take n))).maintainChild node
          (first + n) = some (reparent (reparent s node (pagesOf ((pg.slots.drop first).take n)))
            node [pg.valueAt (first + n)]) :=
        maintainChild_eq (by simp [hnode, hn]) hleaf rfl h0 h1
          (by simp only [reparent_pages]; split <;> simp [hsome])
      rw [hstep, ih (by omega), Option.bind_some, hlast, reparent_reparent_one]
      congr 2
      rw [List.take_add_one, List.getElem?_drop, List.getElem?_eq_getElem hlt]
      simp [pagesOf, IxPage.valueAt, IxPage.getRid, List.getElem?_eq_getElem hlt]

end Writing

/-! ## Well formed upper levels -/

section Upper
variable {K : Type}

/-- An internal page whose children know it. -/
def Inner (s : IxIndexHandle K) (q : Int) : Prop :=
  (∃ pg, s.pages q = some pg ∧ pg.isLeaf = false) ∧ ∀ c ∈ pagesOf (slotsAt s q), parentAt s c = q

def Sized (s : IxIndexHandle K) (lo : Nat) (q : Int) : Prop :=
  lo ≤ (slotsAt s q).length ∧ (slotsAt s q).length < s.getMaxSize

/-- The least size of an internal page below the levels `ls`. -/
def lowest (s : IxIndexHandle K) (ls : List (List Int)) : Nat :=
  if ls = [] then 2 else s.getMinSize

/-- Fields of the handle that only the operations at the leaves change. -/
def fixed (s : IxIndexHandle K) : Nat × Int × Int × Int × Int × Option Int :=
  (s.btreeOrder, s.firstLeaf, s.lastLeaf, s.cachedLeafNo, s.pinnedLeafNo, s.pinnedLeafPage)

/-- The pages `ps` are distinct, allocated and there. -/
structure Alloc (s : IxIndexHandle K) (ps : List Int) : Prop where
  nodup : ps.Nodup
  range : ∀ p ∈ ps, 2 ≤ p ∧ p < s.nextPageNo
  isSome : ∀ p ∈ ps, (s.pages p).isSome
  counted : s.numPages = s.nextPageNo

/-- Of the pages allocated in `s`, only those in `touched` may have a new content in `s'`,
and only those in `kids` besides may have a new parent. -/
structure Frame (s s' : IxIndexHandle K) (touched kids : List Int) : Prop where
  fixed : fixed s' = fixed s
  counted : s.numPages = s.nextPageNo → s'.numPages = s'.nextPageNo
  grows : s.nextPageNo ≤ s'.nextPageNo
  isSome : ∀ p, (s.pages p).isSome → (s'.pages p).isSome
  core : ∀ p, p < s.nextPageNo → p ∉ touched → coreAt s' p = coreAt s p
  same : ∀ p, p < s.nextPageNo → p ∉ touched → p ∉ kids → s'.pages p = s.pages p

theorem Frame.refl (s : IxIndexHandle K) (t k : List Int) : Frame s s t k :=
  ⟨rfl, id, Int.le_refl _, fun _ h => h, fun _ _ _ => rfl, fun _ _ _ _ => rfl⟩

theorem Frame.trans {s s1 s2 : IxIndexHandle K} {t k t1 k1 t2 k2 : List Int}
    (h1 : Frame s s1 t1 k1) (h2 : Frame s1 s2 t2 k2)
    (ht1 : ∀ p, p < s.nextPageNo → p ∈ t1 → p ∈ t) (ht2 : ∀ p, p < s.nextPageNo → p ∈ t2 → p ∈ t)
    (hk1 : ∀ p, p < s.nextPageNo → p ∈ k1 → p ∈ t ∨ p ∈ k)
    (hk2 : ∀ p, p < s.nextPageNo → p ∈ k2 → p ∈ t ∨ p ∈ k) : Frame s s2 t k where
  fixed := h2.fixed.trans h1.fixed
  counted := fun h => h2.counted (h1.counted h)
  grows := Int.le_trans h1.grows h2.grows
  isSome := fun p h => h2.isSome p (h1.isSome p h)
  core := fun p hp ht => (h2.core p (Int.lt_of_lt_of_le hp h1.grows) fun h => ht (ht2 p hp h)).trans
    (h1.core p hp fun h => ht (ht1 p hp h))
  same := fun p hp ht hk => by
    rw [h2.same p (Int.lt_of_lt_of_le hp h1.grows) (fun h => ht (ht2 p hp h))
      (fun h => (hk2 p hp h).elim ht hk),
      h1.same p hp (fun h => ht (ht1 p hp h)) (fun h => (hk1 p hp h).elim ht hk)]

theorem Frame.mono {s s' : IxIndexHandle K} {t k t' k' : List Int} (h : Frame s s' t k)
    (ht : ∀ p ∈ t, p ∈ t') (hk : ∀ p ∈ k, p ∈ t' ∨ p ∈ k') : Frame s s' t' k' where
  fixed := h.fixed
  counted := h.counted
  grows := h.grows
  isSome := h.isSome
  core := fun p hp ht' => h.core p hp fun hp' => ht' (ht p hp')
  same := fun p hp ht' hk' => h.same p hp (fun hp' => ht' (ht p hp')) fun hp' =>
    (hk p hp').elim ht' hk'

theorem Frame.order {s s' : IxIndexHandle K} {t k : List Int} (h : Frame s s' t k) :
    s'.btreeOrder = s.btreeOrder := congrArg Prod.fst h.fixed

theorem Frame.maxSize {s s' : IxIndexHandle K} {t k : List Int} (h : Frame s s' t k) :
    s'.getMaxSize = s.getMaxSize := by simp [getMaxSize, h.order]

theorem Frame.minSize {s s' : IxIndexHandle K} {t k : List Int} (h : Frame s s' t k) :
    s'.getMinSize = s.getMinSize := by simp [getMinSize, h.maxSize]

theorem Alloc.frame {s s' : IxIndexHandle K} {t k ps : List Int} (h : Alloc s ps)
    (hf : Frame s s' t k) : Alloc s' ps where
  nodup := h.nodup
  range := fun p hp => ⟨(h.range p hp).1, Int.lt_of_lt_of_le (h.range p hp).2 hf.grows⟩
  isSome := fun p hp => hf.isSome p (h.isSome p hp)
  counted := hf.counted h.counted

theorem Alloc.sublist {s : IxIndexHandle K} {ps ps' : List Int} (h : Alloc s ps)
    (hs : ps'.Sublist ps) : Alloc s ps' where
  nodup := h.nodup.sublist hs
  range := fun p hp => h.range p (hs.subset hp)
  isSome := fun p hp => h.isSome p (hs.subset hp)
  counted := h.counted

theorem Alloc.append {s : IxIndexHandle K} {a b : List Int} (h1 : Alloc s a) (h2 : Alloc s b)
    (hd : ∀ p ∈ a, p ∉ b) : Alloc s (a ++ b) where
  nodup := List.nodup_append.2 ⟨h1.nodup, h2.nodup, fun p hp _ hq h => hd p hp (h ▸ hq)⟩
  range := fun p hp => (List.mem_append.1 hp).elim (h1.range p) (h2.range p)
  isSome := fun p hp => (List.mem_append.1 hp).elim (h1.isSome p) (h2.isSome p)
  counted := h1.counted

/-- A newly created page joins the others. -/
theorem Alloc.fresh {s s' : IxIndexHandle K} {a b : List Int} {n : Int} (h : Alloc s (a ++ b))
    (hn : n = s.nextPageNo) (h2 : 2 ≤ n) (hnext : s'.nextPageNo = n + 1)
    (hc : s'.numPages = s'.nextPageNo) (hs : ∀ p, (s.pages p).isSome → (s'.pages p).isSome)
    (hsn : (s'.pages n).isSome) : Alloc s' (a ++ n :: b) := by
  have hmem : ∀ p, p ∈ a ++ n :: b ↔ p = n ∨ p ∈ a ++ b := by
    intro p
    simp only [List.mem_append, List.mem_cons]
    tauto
  refine ⟨?_, fun p hp => ?_, fun p hp => ?_, hc⟩
  · refine (List.perm_middle.nodup_iff).2 (List.nodup_cons.2 ⟨fun hp => ?_, h.nodup⟩)
    have := (h.range n hp).2
    omega
  · rcases (hmem p).1 hp with rfl | hp
    · omega
    · have := h.range p hp
      omega
  · rcases (hmem p).1 hp with rfl | hp
    · exact hsn
    · exact hs p (h.isSome p hp)

theorem Alloc.fetchNode {s : IxIndexHandle K} {ps : List Int} (h : Alloc s ps) {p : Int}
    (hp : p ∈ ps) : s.fetchNode p = s.pages p := by
  have := h.range p hp
  have := h.counted
  exact fetchNode_eq (by omega) (by omega)

theorem Inner.congr {s s' : IxIndexHandle K} {q : Int} (h : Inner s q)
    (hq : coreAt s' q = coreAt s q)
    (hk : ∀ c ∈ pagesOf (slotsAt s q), parentAt s' c = parentAt s c) : Inner s' q := by
  obtain ⟨⟨pg, hpg, hleaf⟩, hkids⟩ := h
  refine ⟨?_, fun c hc => ?_⟩
  · simp only [coreAt, hpg, Option.map_some, Option.map_eq_some_iff] at hq
    obtain ⟨pg', hpg', heq⟩ := hq
    exact ⟨pg', hpg', by simpa [IxPage.setParentPageNo, hleaf] using congrArg IxPage.isLeaf heq⟩
  · rw [slotsAt_of_core hq] at hc
    rw [hk c hc, hkids c hc]

theorem Sized.congr {s s' : IxIndexHandle K} {lo : Nat} {q : Int} (h : Sized s lo q)
    (hq : slotsAt s' q = slotsAt s q) (hm : s'.getMaxSize = s.getMaxSize) : Sized s' lo q := by
  simpa [Sized, hq, hm] using h

variable [Inhabited K]

omit [Inhabited K] in
theorem pagesOf_subset_cat {s : IxIndexHandle K} {l : List Int} {p : Int} (hp : p ∈ l) :
    ∀ c ∈ pagesOf (slotsAt s p), c ∈ pagesOf (cat s l) := by
  intro c hc
  obtain ⟨e, he, rfl⟩ := List.mem_map.1 hc
  exact List.mem_map.2 ⟨e, mem_cat.2 ⟨p, hp, he⟩, rfl⟩

/-- `ls` are the levels above the entries `ks`, up to the root. -/
def Up (s : IxIndexHandle K) : List (K × Rid) → List (List Int) → Prop
  | ks, [] => ∃ k, ks = [(k, childRid s.rootPage)] ∧ parentAt s s.rootPage = ixNoPage
  | ks, m :: ls =>
      cat s m = ks ∧ (∀ q ∈ m, Inner s q ∧ Sized s (lowest s ls) q) ∧ Up s (view s m) ls

/-- The upper levels are kept when their pages and the parents of the level below are. -/
theorem Up.frame {s s' : IxIndexHandle K} {ls : List (List Int)} :
    ∀ {ks : List (K × Rid)}, Up s ks ls → s'.rootPage = s.rootPage →
      s'.btreeOrder = s.btreeOrder →
      (∀ p ∈ ls.flatten, s'.pages p = s.pages p) →
      (∀ p ∈ pagesOf ks, parentAt s' p = parentAt s p) → Up s' ks ls := by
  induction ls with
  | nil =>
      rintro ks ⟨k, rfl, hpar⟩ hroot - - hk
      refine ⟨k, by rw [hroot], ?_⟩
      rw [hroot, hk s.rootPage (by simp [pagesOf, childRid]), hpar]
  | cons m ls ih =>
      rintro ks ⟨hcat, hm, hup⟩ hroot hord hp hk
      have hmax : s'.getMaxSize = s.getMaxSize := by simp [getMaxSize, hord]
      have hpm : ∀ q ∈ m, s'.pages q = s.pages q := fun q hq => hp q (by simp [hq])
      have hslots : ∀ q ∈ m, slotsAt s' q = slotsAt s q := fun q hq => slotsAt_of_pages (hpm q hq)
      refine ⟨(cat_congr hslots).trans hcat, fun q hq => ⟨?_, ?_⟩, ?_⟩
      · exact (hm q hq).1.congr (by simp [coreAt, hpm q hq]) fun c hc =>
          hk c (hcat ▸ pagesOf_subset_cat hq c hc)
      · have hlow : lowest s' ls = lowest s ls := by simp [lowest, getMinSize, hmax]
        rw [hlow]
        exact (hm q hq).2.congr (hslots q hq) hmax
      · rw [view_congr hslots]
        refine ih hup hroot hord (fun p hp' => hp p (by simp [hp'])) fun p hp' => ?_
        rw [pagesOf_view] at hp'
        exact parentAt_of_pages (hpm p hp')

/-! ## Finding the place of an entry in its level -/

omit [Inhabited K] in
theorem cat_split {s : IxIndexHandle K} {e : K × Rid} {KB : List (K × Rid)} :
    ∀ {m : List Int} {KA : List (K × Rid)}, cat s m = KA ++ e :: KB →
      ∃ M1 q M2 U V, m = M1 ++ q :: M2 ∧ KA = cat s M1 ++ U ∧ slotsAt s q = U ++ e :: V ∧
        KB = V ++ cat s M2 := by
  intro m
  induction m with
  | nil => intro KA h; simp at h
  | cons p m ih =>
      intro KA h
      rw [cat_cons, List.append_eq_append_iff] at h
      obtain ⟨C, rfl, hm⟩ | ⟨C, hp, hm⟩ := h
      · obtain ⟨M1, q, M2, U, V, rfl, rfl, hq, rfl⟩ := ih hm
        exact ⟨p :: M1, q, M2, U, V, rfl, by simp, hq, rfl⟩
      · cases C with
        | nil =>
            obtain ⟨M1, q, M2, U, V, rfl, hU, hq, rfl⟩ := @ih [] (by simpa using hm.symm)
            exact ⟨p :: M1, q, M2, U, V, rfl, by simpa [← hU] using hp.symm, hq, rfl⟩
        | cons e' C =>
            simp only [List.cons_append, List.cons.injEq] at hm
            obtain ⟨rfl, rfl⟩ := hm
            exact ⟨[], p, m, KA, C, rfl, by simp, hp, rfl⟩

omit [Inhabited K] in
theorem findChild_eq {pg : IxPage K} {U V : List (K × Rid)} {k : K} {x : Int}
    (h : pg.slots = U ++ (k, childRid x) :: V) (hx : x ∉ pagesOf U) :
    pg.findChild x = some U.length := by
  have hU : U.findIdx? (fun e => e.2.pageNo == x) = none := by
    rw [List.findIdx?_eq_none_iff]
    intro e he
    have : e.2.pageNo ≠ x := fun heq => hx (List.mem_map.2 ⟨e, he, heq⟩)
    simpa using this
  simp [IxPage.findChild, h, List.findIdx?_append, hU, List.findIdx?_cons, childRid]

end Upper

end Rmdb.Index
