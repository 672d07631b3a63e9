import Rmdb.Index.Levels

/-!
# Climbing the tree: first keys and splits

`maintain_parent` carries a new first key to the root (`maintainParent_spec`), and
`insert_into_parent` enters a new page into the level above and splits upwards
(`insertIntoParent_spec`).  Both are inductions over the levels above the page: the step
changes one level, the hypothesis the levels above it.
-/

namespace Rmdb.Index

open IxIndexHandle

section
variable {K : Type} [Inhabited K]

/-- The place of an entry in the level above: the page that holds it, found by the parent
field and by `find_child`. -/
theorem Up.cursor {s : IxIndexHandle K} {KA KB : List (K × Rid)} {k : K} {x : Int}
    {m : List Int} {ls : List (List Int)} (h : Up s (KA ++ (k, childRid x) :: KB) (m :: ls))
    (ha : Alloc s (pagesOf (KA ++ (k, childRid x) :: KB) ++ (m :: ls).flatten)) :
    ∃ M1 q M2 U V pgq, m = M1 ++ q :: M2 ∧ KA = cat s M1 ++ U ∧ KB = V ++ cat s M2 ∧
      s.pages q = some pgq ∧ pgq.slots = U ++ (k, childRid x) :: V ∧ pgq.isLeaf = false ∧
      parentAt s x = q ∧ q ≠ ixNoPage ∧ s.fetchNode q = some pgq ∧
      pgq.findChild x = some U.length := by
  obtain ⟨hcat, hm, -⟩ := h
  obtain ⟨M1, q, M2, U, V, rfl, rfl, hq, rfl⟩ := cat_split hcat
  have hqm : q ∈ M1 ++ q :: M2 := by simp
  obtain ⟨⟨pgq, hpgq, hleaf⟩, hkids⟩ := (hm q hqm).1
  have hslots : pgq.slots = U ++ (k, childRid x) :: V := by rw [← slotsAt_eq hpgq, hq]
  have hpar : parentAt s x = q := hkids x (by simp [hq, childRid])
  have hrange := ha.range q (by simp)
  refine ⟨M1, q, M2, U, V, pgq, rfl, rfl, rfl, hpgq, hslots, hleaf, hpar, ?_, ?_, ?_⟩
  · simp only [ixNoPage]
    omega
  · rw [ha.fetchNode (by simp), hpgq]
  · refine findChild_eq hslots fun hx => ?_
    have hnd := ha.nodup
    simp only [pagesOf_append, pagesOf_cons, childRid] at hnd
    have hnd' := (List.nodup_append.1 hnd).1
    exact (List.nodup_append.1 hnd').2.2 x (by simp [hx]) x (by simp) rfl

/-- Put a level back together after the pages between `M1` and `M2` changed to `Q`. -/
theorem Up.rebuild {s s' : IxIndexHandle K} {M1 Q M2 : List Int} {ls : List (List Int)}
    (hmax : s'.getMaxSize = s.getMaxSize)
    (hin : ∀ p ∈ M1 ++ M2, Inner s p ∧ Sized s (lowest s' ls) p)
    (hcore : ∀ p ∈ M1 ++ M2, coreAt s' p = coreAt s p)
    (hpar : ∀ p ∈ pagesOf (cat s M1 ++ cat s M2), parentAt s' p = parentAt s p)
    (hQ : ∀ p ∈ Q, Inner s' p ∧ Sized s' (lowest s' ls) p)
    (hup : Up s' (view s M1 ++ view s' Q ++ view s M2) ls) :
    Up s' (cat s M1 ++ cat s' Q ++ cat s M2) ((M1 ++ Q ++ M2) :: ls) := by
  have hslots : ∀ p ∈ M1 ++ M2, slotsAt s' p = slotsAt s p := fun p hp => slotsAt_of_core (hcore p hp)
  have h1 : ∀ p ∈ M1, slotsAt s' p = slotsAt s p := fun p hp => hslots p (by simp [hp])
  have h2 : ∀ p ∈ M2, slotsAt s' p = slotsAt s p := fun p hp => hslots p (by simp [hp])
  refine ⟨by simp [cat_congr h1, cat_congr h2], fun p hp => ?_, ?_⟩
  · by_cases hpQ : p ∈ Q
    · exact hQ p hpQ
    · have hp' : p ∈ M1 ++ M2 := by
        simp only [List.mem_append] at hp ⊢
        tauto
      refine ⟨(hin p hp').1.congr (hcore p hp') fun c hc => hpar c ?_,
        (hin p hp').2.congr (hslots p hp') hmax⟩
      rw [← cat_append]
      exact pagesOf_subset_cat hp' c hc
  · rw [view_append, view_append, view_congr h1, view_congr h2]
    exact hup

theorem modify_append_length {α : Type} (f : α → α) (U : List α) (e : α) (V : List α) :
    (U ++ e :: V).modify U.length f = U ++ f e :: V := by
  induction U with
  | nil => simp
  | cons u U ih => simp [ih]

omit [Inhabited K] in
/-- `memcpy(get_key(rank), key)` at a known place. -/
theorem setKey_eq {pg : IxPage K} {U V : List (K × Rid)} {k : K} {r : Rid}
    (h : pg.slots = U ++ (k, r) :: V) (k' : K) :
    pg.setKey U.length k' = { pg with slots := U ++ (k', r) :: V } := by
  simp only [IxPage.setKey, h, modify_append_length]

theorem getKey_append {pg : IxPage K} {U V : List (K × Rid)} {k : K} {r : Rid}
    (h : pg.slots = U ++ (k, r) :: V) : pg.getKey U.length = k := by
  simp [IxPage.getKey, h]

omit [Inhabited K] in
theorem frame_setNode (s : IxIndexHandle K) (q : Int) (pg : IxPage K) :
    Frame s (s.setNode q pg) [q] [] where
  fixed := rfl
  counted := id
  grows := Int.le_refl _
  isSome := fun p hp => by
    simp only [setNode_pages]
    split
    · rfl
    · exact hp
  core := fun p _ hp => by simp_all [coreAt]
  same := fun p _ hp _ => by simp_all

omit [Inhabited K] in
theorem frame_setParent {s : IxIndexHandle K} {c q : Int} {pg : IxPage K}
    (hc : s.pages c = some pg) : Frame s (s.setNode c (pg.setParentPageNo q)) [] [c] where
  fixed := rfl
  counted := id
  grows := Int.le_refl _
  isSome := fun p hp => by
    simp only [setNode_pages]
    split
    · rfl
    · exact hp
  core := fun p _ _ => by
    simp only [coreAt, setNode_pages]
    split
    · next h => simp [h, hc, IxPage.setParentPageNo]
    · rfl
  same := fun p _ _ hp => by simp_all

omit [Inhabited K] in
/-- The pages of a level, the entries below it and the levels above are kept apart. -/
theorem Alloc.apart {s : IxIndexHandle K} {P M1 M2 : List Int} {q : Int} {ls : List (List Int)}
    (h : Alloc s (P ++ ((M1 ++ q :: M2) :: ls).flatten)) :
    (∀ p ∈ M1 ++ M2, p ≠ q ∧ p ∉ ls.flatten) ∧ q ∉ ls.flatten ∧
    ∀ p ∈ P, p ≠ q ∧ p ∉ M1 ++ M2 ∧ p ∉ ls.flatten := by
  have hnd := h.nodup
  simp only [List.flatten_cons, List.nodup_append, List.nodup_cons, List.mem_append,
    List.mem_cons] at hnd ⊢
  grind

/-- A change of one page of a level, and of pages outside this and the levels above, is not
seen above. -/
theorem Up.above {s s' : IxIndexHandle K} {P T C M1 M2 : List Int} {q : Int}
    {ls : List (List Int)} (ha : Alloc s (P ++ ((M1 ++ q :: M2) :: ls).flatten))
    (h : Up s (view s (M1 ++ q :: M2)) ls) (hf : Frame s s' T C)
    (hT : ∀ p ∈ T, p = q ∨ p ∉ ((M1 ++ q :: M2) :: ls).flatten)
    (hC : ∀ p ∈ C, p ∉ ((M1 ++ q :: M2) :: ls).flatten)
    (hroot : s'.rootPage = s.rootPage) (hpar : parentAt s' q = parentAt s q) :
    Up s' (view s M1 ++ (firstKey s q, childRid q) :: view s M2) ls := by
  obtain ⟨hM, hqls, -⟩ := ha.apart
  have hsame : ∀ p ∈ ((M1 ++ q :: M2) :: ls).flatten, p ≠ q → s'.pages p = s.pages p := by
    intro p hp hpq
    refine hf.same p (ha.range p (List.mem_append_right _ hp)).2 (fun h => ?_) fun h => hC p h hp
    exact (hT p h).elim hpq fun h' => h' hp
  refine Up.frame (by simpa using h) hroot hf.order (fun p hp => ?_) fun p hp => ?_
  · exact hsame p (by simp [hp]) fun h => hqls (h ▸ hp)
  · by_cases hpq : p = q
    · rw [hpq, hpar]
    · refine parentAt_of_pages (hsame p ?_ hpq)
      have : p ∈ M1 ++ M2 := by simpa [childRid, hpq] using hp
      simp at this ⊢
      tauto

/-- A page of a level rewritten in place, with its first key kept. -/
theorem Up.replace {s s' : IxIndexHandle K} {P T C M1 M2 : List Int} {q : Int}
    {ls : List (List Int)} (ha : Alloc s (P ++ ((M1 ++ q :: M2) :: ls).flatten))
    (hm : ∀ p ∈ M1 ++ q :: M2, Inner s p ∧ Sized s (lowest s ls) p)
    (hview : Up s (view s (M1 ++ q :: M2)) ls) (hf : Frame s s' T C)
    (hT : ∀ p ∈ T, p = q ∨ p ∉ ((M1 ++ q :: M2) :: ls).flatten)
    (hC : ∀ p ∈ C, p ∉ ((M1 ++ q :: M2) :: ls).flatten)
    (hroot : s'.rootPage = s.rootPage) (hpar : parentAt s' q = parentAt s q)
    (hkey : firstKey s' q = firstKey s q)
    (hkP : ∀ p ∈ pagesOf (cat s M1 ++ cat s M2), parentAt s' p = parentAt s p)
    (hq : Inner s' q) (hsz : Sized s' (lowest s ls) q) :
    Up s' (cat s M1 ++ slotsAt s' q ++ cat s M2) ((M1 ++ q :: M2) :: ls) := by
  obtain ⟨hM, -, -⟩ := ha.apart
  have hlow : lowest s' ls = lowest s ls := by simp [lowest, hf.minSize]
  have hmem : ∀ p ∈ M1 ++ M2, p ∈ ((M1 ++ q :: M2) :: ls).flatten := by
    intro p hp
    simp at hp ⊢
    tauto
  have hre : Up s' (cat s M1 ++ cat s' [q] ++ cat s M2) ((M1 ++ [q] ++ M2) :: ls) := by
    refine Up.rebuild hf.maxSize (fun p hp => ?_) (fun p hp => ?_) hkP (by simp [hq, hsz, hlow]) ?_
    · rw [hlow]
      exact hm p (by simp at hp ⊢; tauto)
    · refine hf.core p (ha.range p (List.mem_append_right _ (hmem p hp))).2 fun h => ?_
      exact (hT p h).elim (hM p hp).1 fun h' => h' (hmem p hp)
    · have := hview.above ha hf hT hC hroot hpar
      simpa [hkey] using this
  simpa using hre

/-! ## First keys -/

theorem maintainParent_spec [DecidableEq K] : ∀ (ls : List (List Int)) (fuel : Nat)
    (s : IxIndexHandle K) (x : Int) (KA KB : List (K × Rid)) (k : K),
    Up s (KA ++ (k, childRid x) :: KB) ls →
    Alloc s (pagesOf (KA ++ (k, childRid x) :: KB) ++ ls.flatten) → ls.length < fuel →
    ∃ s', maintainParent fuel s x = some s' ∧
      Up s' (KA ++ (firstKey s x, childRid x) :: KB) ls ∧ Frame s s' ls.flatten [] := by
  intro ls
  induction ls with
  | nil =>
      intro fuel s x KA KB k hup ha hfuel
      obtain ⟨fuel, rfl⟩ : ∃ n, fuel = n + 1 := ⟨fuel - 1, by omega⟩
      obtain ⟨k', hks, hpar⟩ := hup
      obtain ⟨pg, hpg⟩ := Option.isSome_iff_exists.1 (ha.isSome x (by simp [childRid]))
      have hx : KA = [] ∧ KB = [] ∧ x = s.rootPage := by
        cases KA <;> simp_all [childRid]
      obtain ⟨rfl, rfl, rfl⟩ := hx
      refine ⟨s, ?_, ⟨_, rfl, hpar⟩, Frame.refl _ _ _⟩
      simp [maintainParent, hpg, parentAt_eq hpg ▸ hpar]
  | cons m ls ih =>
      intro fuel s x KA KB k hup ha hfuel
      obtain ⟨fuel, rfl⟩ : ∃ n, fuel = n + 1 := ⟨fuel - 1, by omega⟩
      obtain ⟨pg, hpg⟩ := Option.isSome_iff_exists.1 (ha.isSome x (by simp [childRid]))
      obtain ⟨M1, q, M2, U, V, pgq, rfl, rfl, rfl, hpgq, hslots, hleaf, hpar, hq, hfetch, hfind⟩ :=
        hup.cursor ha
      rw [parentAt_eq hpg] at hpar
      have hf : firstKey s x = pg.getKey 0 := firstKey_eq hpg
      by_cases hk : k = pg.getKey 0
      · refine ⟨s, ?_, by rwa [hf, ← hk], Frame.refl _ _ _⟩
        simp [maintainParent, hpg, hpar, hq, hfetch, hfind, getKey_append hslots, hk]
      -- the entry of `x` changes in `q`, and with it perhaps the first key of `q`
      obtain ⟨hM, hqls, hP⟩ := ha.apart
      obtain ⟨-, hm, hview⟩ := hup
      have hx := (hP x (by simp [childRid])).1
      obtain ⟨s1, hs1⟩ : ∃ s1, s1 = s.setNode q (pgq.setKey U.length (pg.getKey 0)) := ⟨_, rfl⟩
      have hf1 : Frame s s1 [q] [] := hs1 ▸ frame_setNode _ _ _
      have hpg1 : ∀ p, p ≠ q → s1.pages p = s.pages p := fun p hp => by simp [hs1, hp]
      have hq1 : s1.pages q = some (pgq.setKey U.length (pg.getKey 0)) := by simp [hs1]
      have hsl1 : slotsAt s1 q = U ++ (pg.getKey 0, childRid x) :: V := by
        rw [slotsAt_eq hq1, setKey_eq hslots]
      have hpar1 : ∀ p, parentAt s1 p = parentAt s p := by
        intro p
        by_cases hp : p = q
        · rw [hp, parentAt_eq hq1, parentAt_eq hpgq]
          rfl
        · exact parentAt_of_pages (hpg1 p hp)
      have hup1 : Up s1 (view s M1 ++ (firstKey s q, childRid q) :: view s M2) ls := by
        refine Up.frame (by simpa using hview) (by rw [hs1]; rfl) hf1.order
          (fun p hp => hpg1 p fun h => hqls (h ▸ hp)) fun p _ => hpar1 p
      have ha1 : Alloc s1 (pagesOf (view s M1 ++ (firstKey s q, childRid q) :: view s M2) ++
          ls.flatten) := by
        refine (ha.frame hf1).sublist ?_
        rw [show pagesOf (view s M1 ++ (firstKey s q, childRid q) :: view s M2) = M1 ++ q :: M2 by
          simp [childRid]]
        exact List.sublist_append_right _ _
      obtain ⟨s', hrun, hup', hfr⟩ := ih fuel s1 q _ _ _ hup1 ha1 (by simpa using hfuel)
      have hM' : ∀ p ∈ M1 ++ M2, s'.pages p = s.pages p := by
        intro p hp
        have hlt := (ha.range p (by simp at hp ⊢; tauto)).2
        rw [hfr.same p (Int.lt_of_lt_of_le hlt hf1.grows) (hM p hp).2 (by simp), hpg1 p (hM p hp).1]
      have hks' : ∀ p ∈ pagesOf (cat s M1 ++ U ++ (k, childRid x) :: (V ++ cat s M2)),
          s'.pages p = s.pages p := by
        intro p hp
        have hlt := (ha.range p (by simp at hp ⊢; tauto)).2
        rw [hfr.same p (Int.lt_of_lt_of_le hlt hf1.grows) (hP p hp).2.2 (by simp),
          hpg1 p (hP p hp).1]
      have hq' : s'.pages q = s1.pages q :=
        hfr.same q (Int.lt_of_lt_of_le (ha.range q (by simp)).2 hf1.grows) hqls (by simp)
      have hsl' : slotsAt s' q = U ++ (pg.getKey 0, childRid x) :: V := by
        rw [slotsAt_of_pages hq', hsl1]
      refine ⟨s', ?_, ?_, hf1.trans hfr ?_ ?_ ?_ ?_⟩
      · rw [← hrun, hs1]
        simp [maintainParent, hpg, hpar, hq, hfetch, hfind, getKey_append hslots, hk]
      · have hlow : lowest s' ls = lowest s ls := by
          simp [lowest, hfr.minSize, hf1.minSize]
        have hQ : Inner s' q ∧ Sized s' (lowest s' ls) q := by
          obtain ⟨⟨-, hkids⟩, hsz⟩ := hm q (by simp)
          have hpages : pagesOf (slotsAt s' q) = pagesOf (slotsAt s q) := by
            simp [hsl', slotsAt_eq hpgq, hslots]
          refine ⟨⟨⟨_, hq'.trans hq1, hleaf⟩, fun c hc => ?_⟩, ?_⟩
          · rw [hpages] at hc
            rw [parentAt_of_pages (hks' c ?_), hkids c hc]
            rw [slotsAt_eq hpgq, hslots] at hc
            simp at hc ⊢
            tauto
          · rw [hlow]
            simpa [Sized, hsl', slotsAt_eq hpgq, hslots, hfr.maxSize, hf1.maxSize] using hsz
        have hre : Up s' (cat s M1 ++ cat s' [q] ++ cat s M2) ((M1 ++ [q] ++ M2) :: ls) := by
          refine Up.rebuild (hfr.maxSize.trans hf1.maxSize)
            (fun p hp => by rw [hlow]; exact hm p (by simp at hp ⊢; tauto))
            (fun p hp => by simp [coreAt, hM' p hp])
            (fun p hp => parentAt_of_pages (hks' p (by simp at hp ⊢; tauto))) (by simpa using hQ) ?_
          simpa [firstKey_congr (slotsAt_of_pages hq')] using hup'
        simpa [hsl', hf] using hre
      · intro p _ hp
        simp_all
      · intro p _ hp
        simp [hp]
      · simp
      · simp

omit [Inhabited K] in
theorem lowest_le_min {s : IxIndexHandle K} (ho : 2 < s.btreeOrder) (ls : List (List Int)) :
    lowest s ls ≤ s.getMinSize := by
  simp only [lowest, getMinSize, getMaxSize]
  split <;> omega

/-- The pages beside another one are not the root, so they have the full minimal size. -/
theorem Up.sized_beside {s : IxIndexHandle K} {M1 M2 : List Int} {q : Int} {ls : List (List Int)}
    (h : Up s (view s (M1 ++ q :: M2)) ls)
    (hm : ∀ p ∈ M1 ++ q :: M2, Inner s p ∧ Sized s (lowest s ls) p) :
    ∀ p ∈ M1 ++ M2, Inner s p ∧ Sized s s.getMinSize p := by
  intro p hp
  have hp' := hm p (by simp at hp ⊢; tauto)
  cases ls with
  | nil =>
      obtain ⟨k, hk, -⟩ := h
      have hlen := congrArg List.length hk
      simp only [view, List.length_map, List.length_append, List.length_cons, List.length_nil] at hlen
      have : M1 = [] ∧ M2 = [] := by
        constructor <;> apply List.eq_nil_of_length_eq_zero <;> omega
      simp [this.1, this.2] at hp
  | cons m ls => exact hp'

/-! ## Splitting internal pages -/

/-- Splitting an internal page: the right half goes to a fresh page, which becomes the
parent of the children that moved. -/
theorem split_inner {s : IxIndexHandle K} {q : Int} {pg : IxPage K} (hpg : s.pages q = some pg)
    (hleaf : pg.isLeaf = false) (ha : Alloc s (pagesOf pg.slots ++ [q])) :
    ∃ s', s.split q = some (s', s.nextPageNo) ∧ s'.rootPage = s.rootPage ∧
      s'.nextPageNo = s.nextPageNo + 1 ∧
      s'.pages q = some (pg.setSize (pg.getSize / 2)) ∧
      (∃ pg', s'.pages s.nextPageNo = some pg' ∧ pg'.isLeaf = false ∧
        pg'.slots = pg.slots.drop (pg.getSize / 2)) ∧
      (∀ c ∈ pagesOf (pg.slots.drop (pg.getSize / 2)), parentAt s' c = s.nextPageNo) ∧
      Frame s s' [q] (pagesOf (pg.slots.drop (pg.getSize / 2))) := by
  obtain ⟨kids, hkids⟩ : ∃ ks, ks = pagesOf (pg.slots.drop (pg.getSize / 2)) := ⟨_, rfl⟩
  obtain ⟨newPg, hnew⟩ : ∃ np : IxPage K,
    np = ⟨pg.parent, false, 0, 0, pg.slots.drop (pg.getSize / 2)⟩ := ⟨_, rfl⟩
  obtain ⟨s1, hs1⟩ : ∃ s1, s1 = (s.createNode.1.setNode s.nextPageNo newPg).setNode q
    (pg.setSize (pg.getSize / 2)) := ⟨_, rfl⟩
  have hp1 : ∀ p, s1.pages p = if p = q then some (pg.setSize (pg.getSize / 2))
      else if p = s.nextPageNo then some newPg else s.pages p := by
    intro p
    simp only [hs1, setNode_pages, createNode]
    split_ifs <;> rfl
  have hsub : ∀ c ∈ kids, c ∈ pagesOf pg.slots := by
    intro c hc
    obtain ⟨e, he, rfl⟩ := List.mem_map.1 (hkids ▸ hc)
    exact List.mem_map.2 ⟨e, List.mem_of_mem_drop he, rfl⟩
  have hkq : ∀ c ∈ kids, c ≠ q ∧ c ≠ s.nextPageNo := by
    intro c hc
    have hr := (ha.range c (by simp [hsub c hc])).2
    refine ⟨fun h => ?_, by omega⟩
    exact (List.nodup_append.1 ha.nodup).2.2 c (hsub c hc) q (by simp) h
  have hqn : q ≠ s.nextPageNo := by
    have := (ha.range q (by simp)).2
    omega
  have hqk : q ∉ kids := fun h => (hkq q h).1 rfl
  have hnk : s.nextPageNo ∉ kids := fun h => (hkq _ h).2 rfl
  have hloop : s1.maintainChildren s.nextPageNo 0 newPg.getSize =
      some (reparent s1 s.nextPageNo kids) := by
    have hn : s1.pages s.nextPageNo = some newPg := by rw [hp1, if_neg hqn.symm, if_pos rfl]
    rw [maintainChildren_eq hn (by simp [hnew]) (by simp [IxPage.getSize])]
    · rw [List.drop_zero, IxPage.getSize, List.take_length, hnew, hkids]
    · intro c hc
      have hc' : c ∈ kids := by simpa [hkids, hnew] using hc
      have hr := ha.range c (by simp [hsub c hc'])
      refine ⟨(hkq c hc').2, by omega, ?_, ?_⟩
      · simp only [hs1, createNode, setNode_numPages, ha.counted]
        omega
      · rw [hp1, if_neg (hkq c hc').1, if_neg (hkq c hc').2]
        exact ha.isSome c (by simp [hsub c hc'])
  have hp' : ∀ p, p ∉ kids → (reparent s1 s.nextPageNo kids).pages p = s1.pages p :=
    fun p hp => by simp [hp]
  refine ⟨reparent s1 s.nextPageNo kids, ?_, by rw [hs1]; rfl, by rw [hs1]; rfl, ?_,
    ⟨newPg, ?_, by simp [hnew], by simp [hnew]⟩, fun c hc => ?_, ?_⟩
  · have hins : IxPage.insertPairs { (IxPage.zero : IxPage K) with
        isLeaf := pg.isLeaf, parent := pg.parent } 0 (pg.slots.drop (pg.getSize / 2)) = newPg := by
      simp [hnew, IxPage.insertPairs, IxPage.zero, hleaf]
    have hsplit : s.split q = (s1.maintainChildren s.nextPageNo 0 newPg.getSize).bind
        fun s' => some (s', s.nextPageNo) := by
      simp only [split, hpg, Option.bind_eq_bind, Option.bind_some]
      rw [if_neg (by simp [IxPage.setSize, hleaf])]
      simp only [hins, hs1]
      rfl
    rw [hsplit, hloop, Option.bind_some]
  · rw [hp' q hqk, hp1, if_pos rfl]
  · rw [hp' _ hnk, hp1, if_neg hqn.symm, if_pos rfl]
  · rw [← hkids] at hc
    obtain ⟨cp, hcp⟩ := Option.isSome_iff_exists.1 (ha.isSome c (by simp [hsub c hc]))
    have : (reparent s1 s.nextPageNo kids).pages c = some (cp.setParentPageNo s.nextPageNo) := by
      simp [hc, hp1, (hkq c hc).1, (hkq c hc).2, hcp]
    rw [parentAt_eq this]
    rfl
  · rw [← hkids]
    refine ⟨by rw [hs1]; rfl, fun _ => ?_, ?_, fun p hp => ?_, fun p hp hpq => ?_,
      fun p hp hpq hpk => ?_⟩
    · simp [reparent, hs1, createNode, ha.counted]
    · simp only [reparent, hs1, createNode, setNode_nextPageNo]
      omega
    · have hsome : (s1.pages p).isSome := by
        rw [hp1]
        split
        · rfl
        · split
          · rfl
          · exact hp
      rw [reparent_pages]
      split
      · rw [Option.isSome_map]
        exact hsome
      · exact hsome
    · have hpn : p ≠ s.nextPageNo := by omega
      simp only [List.mem_singleton] at hpq
      simp only [coreAt, reparent_pages, hp1, if_neg hpq, if_neg hpn]
      split
      · simp [IxPage.setParentPageNo, Function.comp_def]
      · rfl
    · have hpn : p ≠ s.nextPageNo := by omega
      simp only [List.mem_singleton] at hpq
      rw [hp' p hpk, hp1, if_neg hpq, if_neg hpn]

/-! ## Entering a new page -/

omit [Inhabited K] in
theorem insertPair_slots {pg : IxPage K} {U V : List (K × Rid)} {e : K × Rid} {k : K} {r : Rid}
    (h : pg.slots = U ++ e :: V) :
    (pg.insertPair (U.length + 1) k r).slots = U ++ e :: (k, r) :: V := by
  have h' : pg.slots = (U ++ [e]) ++ V := by simp [h]
  have hlen : U.length + 1 = (U ++ [e]).length := by simp
  simp only [IxPage.insertPair, IxPage.insertPairs]
  rw [h', hlen, List.take_left, List.drop_left]
  simp

/-- The pages of the tree grow by fresh ones. -/
def Fresh (s : IxIndexHandle K) (ls ls' : List (List Int)) : Prop :=
  ∀ p ∈ ls'.flatten, p ∈ ls.flatten ∨ s.nextPageNo ≤ p

theorem insertIntoParent_root {s : IxIndexHandle K} {x n : Int} {k : K} (kn : K)
    (fuel : Nat) (hk : k = firstKey s x) (hroot : x = s.rootPage) (hpar : parentAt s x = ixNoPage)
    (ha : Alloc s [x, n]) (ho : 2 < s.btreeOrder) :
    ∃ s' r, insertIntoParent (fuel + 1) s x kn n = some s' ∧ r = s.nextPageNo ∧
      Up s' [(k, childRid x), (kn, childRid n)] [[r]] ∧ Alloc s' [x, n, r] ∧
      Frame s s' [] [x, n] := by
  obtain ⟨pg, hpg⟩ := Option.isSome_iff_exists.1 (ha.isSome x (by simp))
  obtain ⟨npg, hnpg⟩ := Option.isSome_iff_exists.1 (ha.isSome n (by simp))
  have hxn : x ≠ n := by
    have := ha.nodup
    simpa using this
  have hx := ha.range x (by simp)
  have hn := ha.range n (by simp)
  obtain ⟨r, hr⟩ : ∃ r, r = s.nextPageNo := ⟨_, rfl⟩
  have hxr : x ≠ r := by omega
  have hnr : n ≠ r := by omega
  obtain ⟨root, hrt⟩ : ∃ root : IxPage K,
    root = ⟨ixNoPage, false, 0, 0, [(k, childRid x), (kn, childRid n)]⟩ := ⟨_, rfl⟩
  obtain ⟨s', hs'⟩ : ∃ s' : IxIndexHandle K, s' = { s with
    numPages := s.numPages + 1, nextPageNo := s.nextPageNo + 1, rootPage := r,
    pages := fun p => if p = n then some (npg.setParentPageNo r)
      else if p = x then some (pg.setParentPageNo r)
      else if p = r then some root else s.pages p } := ⟨_, rfl⟩
  have hpx : s'.pages x = some (pg.setParentPageNo r) := by simp [hs', hxn]
  have hpn : s'.pages n = some (npg.setParentPageNo r) := by simp [hs']
  have hpr : s'.pages r = some root := by simp [hs', hxr.symm, hnr.symm]
  have hother : ∀ p, p ≠ x → p ≠ n → p ≠ r → s'.pages p = s.pages p := by
    intro p h1 h2 h3
    simp [hs', h1, h2, h3]
  have hslr : slotsAt s' r = [(k, childRid x), (kn, childRid n)] := by rw [slotsAt_eq hpr, hrt]
  refine ⟨s', r, ?_, hr, ⟨by simp [hslr], ?_, ?_⟩, ?_, ?_⟩
  · have hpar' : pg.parent = ixNoPage := by rw [← parentAt_eq hpg, hpar]
    have hnpg' : ((s.createNode.1.setNode r root).setNode x (pg.setParentPageNo r)).pages n =
        some npg := by simp [hxn.symm, hnr, createNode, ← hr, hnpg]
    have hroot' : root = (IxPage.insertPair (IxPage.insertPair { (IxPage.zero : IxPage K) with
        isLeaf := false, parent := ixNoPage } 0 (pg.getKey 0) (childRid x)) 1 kn (childRid n)) := by
      simp [hrt, IxPage.insertPair, IxPage.insertPairs, IxPage.zero, hk, firstKey_eq hpg]
    simp only [insertIntoParent, hpg, Option.bind_eq_bind, Option.bind_some, hpar', if_true]
    rw [← hroot']
    change ((((s.createNode.1.setNode s.nextPageNo root).setNode x
      (pg.setParentPageNo s.nextPageNo)).pages n).bind fun newPg => _) = some s'
    rw [← hr, hnpg', Option.bind_some, hs']
    simp only [setNode, createNode, ← hr]
    congr 2
    funext p
    split_ifs <;> rfl
  · intro q hq
    obtain rfl : q = r := by simpa using hq
    refine ⟨⟨⟨root, hpr, by simp [hrt]⟩, fun c hc => ?_⟩, ?_⟩
    · simp only [hslr, pagesOf, childRid, List.map_cons, List.map_nil, List.mem_cons,
        List.not_mem_nil, or_false] at hc
      rcases hc with rfl | rfl
      · rw [parentAt_eq hpx]
        rfl
      · rw [parentAt_eq hpn]
        rfl
    · have hmax : s'.getMaxSize = s.btreeOrder + 1 := by simp [hs', getMaxSize]
      simp only [Sized, lowest, hslr, hmax, if_true, List.length_cons, List.length_nil]
      omega
  · refine ⟨firstKey s' r, by simp [hs'], ?_⟩
    have : s'.rootPage = r := by simp [hs']
    rw [this, parentAt_eq hpr, hrt]
  · refine ⟨by simp [hxn, hxr, hnr], ?_, ?_, by simp [hs', ha.counted]⟩
    · intro p hp
      simp only [List.mem_cons, List.not_mem_nil, or_false] at hp
      simp only [hs']
      omega
    · intro p hp
      simp only [List.mem_cons, List.not_mem_nil, or_false] at hp
      rcases hp with rfl | rfl | rfl
      · simp [hpx]
      · simp [hpn]
      · simp [hpr]
  · refine ⟨by simp [hs', fixed], by simp [hs'], by simp only [hs']; omega, fun p hp => ?_,
      fun p hp _ => ?_, fun p hp _ hpk => ?_⟩
    · simp only [hs']
      split_ifs <;> simp_all
    · have hp' : p ≠ r := by omega
      simp only [coreAt]
      by_cases h1 : p = x
      · simp [h1, hpx, hpg, IxPage.setParentPageNo]
      · by_cases h2 : p = n
        · simp [h2, hpn, hnpg, IxPage.setParentPageNo]
        · rw [hother p h1 h2 hp']
    · simp only [List.mem_cons, List.not_mem_nil, or_false, not_or] at hpk
      exact hother p hpk.1 hpk.2 (by omega)

omit [Inhabited K] in
theorem pagesOf_middle {A S B : List (K × Rid)} {p : Int} (h : p ∈ pagesOf S) : p ∈ pagesOf (A ++ S ++ B) := by
  rw [pagesOf_append, pagesOf_append]
  exact List.mem_append_left _ (List.mem_append_right _ h)

/-- The level above has taken the new page `n` into its page `q`, which was `pg` and is now `pg'`. -/
structure Entered (s s1 : IxIndexHandle K) (q n : Int) (pg pg' : IxPage K) (M1 M2 : List Int)
    (ls : List (List Int)) : Prop where
  level : ∀ p ∈ M1 ++ q :: M2, Inner s p ∧ Sized s (lowest s ls) p
  view : Up s (view s (M1 ++ q :: M2)) ls
  alloc : Alloc s (pagesOf (cat s M1 ++ pg'.slots ++ cat s M2) ++ ((M1 ++ q :: M2) :: ls).flatten)
  old : s.pages q = some pg
  page : s1.pages q = some pg'
  leaf : pg'.isLeaf = false
  parent : pg'.parent = pg.parent
  size : pg'.slots.length = pg.slots.length + 1
  key : pg'.getKey 0 = pg.getKey 0
  mem : n ∈ pagesOf pg'.slots
  others : ∀ p, p ≠ q → p ≠ n → s1.pages p = s.pages p
  kids : ∀ c ∈ pagesOf pg'.slots, parentAt s1 c = q
  frame : Frame s s1 [q] [n]
  root : s1.rootPage = s.rootPage
  next : s1.nextPageNo = s.nextPageNo

/-- One step up: the page `x` is found in the level above, and `n` is entered behind it. -/
theorem insertIntoParent_enter {s : IxIndexHandle K} {x n : Int} {KA KB : List (K × Rid)} {k kn : K}
    {m : List Int} {ls : List (List Int)} (fuel : Nat) (hup : Up s (KA ++ (k, childRid x) :: KB) (m :: ls))
    (ha : Alloc s (pagesOf (KA ++ (k, childRid x) :: (kn, childRid n) :: KB) ++ (m :: ls).flatten)) :
    ∃ M1 q M2 pg pg' s1, m = M1 ++ q :: M2 ∧
      KA ++ (k, childRid x) :: (kn, childRid n) :: KB = cat s M1 ++ pg'.slots ++ cat s M2 ∧
      Entered s s1 q n pg pg' M1 M2 ls ∧
      insertIntoParent (fuel + 1) s x kn n =
        if pg'.getSize ≥ s1.getMaxSize then
          (s1.split q).bind fun r => (r.1.pages r.2).bind fun newParent =>
            insertIntoParent fuel r.1 q (newParent.getKey 0) r.2
        else some s1 := by
  obtain ⟨pgx, hpgx⟩ := Option.isSome_iff_exists.1 (ha.isSome x (by simp [childRid]))
  obtain ⟨npg, hnpg⟩ := Option.isSome_iff_exists.1 (ha.isSome n (by simp [childRid]))
  have ha0 : Alloc s (pagesOf (KA ++ (k, childRid x) :: KB) ++ (m :: ls).flatten) := by
    refine ha.sublist ?_
    simp only [pagesOf_append, pagesOf_cons]
    exact List.Sublist.append_right (((List.sublist_cons_self _ _).cons_cons _).append_left _) _
  obtain ⟨M1, q, M2, U, V, pg, rfl, rfl, rfl, hpg, hslots, hleaf, hpar, hq, hfetch, hfind⟩ := hup.cursor ha0
  obtain ⟨hM, hqls, hP⟩ := ha.apart
  obtain ⟨-, hm, hview⟩ := hup
  rw [parentAt_eq hpgx] at hpar
  obtain ⟨pg', hpg'⟩ : ∃ pg', pg' = pg.insertPair (U.length + 1) kn (childRid n) := ⟨_, rfl⟩
  have hslots' : pg'.slots = U ++ (k, childRid x) :: (kn, childRid n) :: V := by
    rw [hpg', insertPair_slots hslots]
  have hentries : cat s M1 ++ U ++ (k, childRid x) :: (kn, childRid n) :: (V ++ cat s M2) =
      cat s M1 ++ pg'.slots ++ cat s M2 := by simp [hslots']
  have hnq : n ≠ q := (hP n (by simp [childRid])).1
  obtain ⟨s1, hs1⟩ : ∃ s1, s1 = (s.setNode q pg').setNode n (npg.setParentPageNo q) := ⟨_, rfl⟩
  have hq1 : s1.pages q = some pg' := by simp [hs1, hnq.symm]
  have hn1 : s1.pages n = some (npg.setParentPageNo q) := by simp [hs1]
  have ho1 : ∀ p, p ≠ q → p ≠ n → s1.pages p = s.pages p := fun p h1 h2 => by simp [hs1, h1, h2]
  have hf1 : Frame s s1 [q] [n] := by
    have h1 := frame_setNode s q pg'
    have h2 : Frame (s.setNode q pg') s1 [] [n] := hs1 ▸ frame_setParent (by simp [hnq, hnpg])
    exact h1.trans h2 (by simp) (by simp) (by simp) fun p _ hp => Or.inr hp
  have hkids1 : ∀ c ∈ pagesOf pg'.slots, parentAt s1 c = q := by
    intro c hc
    by_cases hcn : c = n
    · rw [hcn, parentAt_eq hn1]
      rfl
    · have hc0 : c ∈ pagesOf (slotsAt s q) := by
        simp only [hslots', slotsAt_eq hpg, hslots, pagesOf_append, pagesOf_cons, childRid,
          List.mem_append, List.mem_cons] at hc ⊢
        tauto
      have hcq : c ≠ q := (hP c (by
        simp only [hslots', pagesOf_append, pagesOf_cons, List.mem_append, List.mem_cons] at hc ⊢
        tauto)).1
      rw [parentAt_of_pages (ho1 c hcq hcn), (hm q (by simp)).1.2 c hc0]
  refine ⟨M1, q, M2, pg, pg', s1, rfl, hentries, ⟨hm, hview, hentries ▸ ha, hpg, hq1, by rw [hpg']; exact hleaf,
    by rw [hpg']; rfl, ?_, ?_, by simp [hslots', childRid], ho1, hkids1, hf1,
    by rw [hs1]; rfl, by rw [hs1]; rfl⟩, ?_⟩
  · rw [hslots, hslots', List.length_append, List.length_append]
    rfl
  · simp only [IxPage.getKey, hslots, hslots']
    cases U <;> rfl
  · have hn0 : (s.setNode q pg').pages n = some npg := by simp [hnq, hnpg]
    simp only [insertIntoParent, hpgx, hpar, hfetch, hfind, Option.bind_eq_bind, Option.bind_some,
      if_neg hq, ← hpg', hn0, ← hs1]

namespace Entered

variable {s s1 : IxIndexHandle K} {q n : Int} {pg pg' : IxPage K} {M1 M2 : List Int} {ls : List (List Int)}

/-- The entries of the other pages of the level. -/
theorem beside (h : Entered s s1 q n pg pg' M1 M2 ls) : ∀ p ∈ pagesOf (cat s M1 ++ cat s M2),
    p ∈ pagesOf (cat s M1 ++ pg'.slots ++ cat s M2) ∧ p ∉ pagesOf pg'.slots := by
  intro p hp
  have hnd := (List.nodup_append.1 h.alloc.nodup).1
  simp only [pagesOf_append, List.mem_append, List.nodup_append] at hp hnd ⊢
  grind

theorem outside (h : Entered s s1 q n pg pg' M1 M2 ls) :
    ∀ p ∈ pagesOf (cat s M1 ++ pg'.slots ++ cat s M2), p ∉ ((M1 ++ q :: M2) :: ls).flatten :=
  fun p hp hp' => (List.nodup_append.1 h.alloc.nodup).2.2 p hp p hp' rfl

theorem parentAt_eq (h : Entered s s1 q n pg pg' M1 M2 ls) : parentAt s1 q = parentAt s q := by
  rw [Index.parentAt_eq h.page, Index.parentAt_eq h.old, h.parent]

theorem length_le (h : Entered s s1 q n pg pg' M1 M2 ls) : pg'.getSize ≤ s1.getMaxSize := by
  have hsz := (h.level q (by simp)).2.2
  rw [slotsAt_eq h.old] at hsz
  rw [IxPage.getSize, h.size, h.frame.maxSize]
  exact hsz

/-- A page with room for the entry. -/
theorem fits (h : Entered s s1 q n pg pg' M1 M2 ls) (hsz : pg'.getSize < s1.getMaxSize) :
    Up s1 (cat s M1 ++ pg'.slots ++ cat s M2) ((M1 ++ q :: M2) :: ls) := by
  obtain ⟨-, -, hP⟩ := h.alloc.apart
  have hkey1 : firstKey s1 q = firstKey s q := by rw [firstKey_eq h.page, firstKey_eq h.old, h.key]
  have hsized1 : Sized s1 (lowest s ls) q := by
    have hold := (h.level q (by simp)).2.1
    have hlen := h.size
    rw [slotsAt_eq h.old] at hold
    rw [IxPage.getSize] at hsz
    rw [Sized, slotsAt_eq h.page]
    omega
  have hup1 := Up.replace h.alloc h.level h.view h.frame (by simp)
    (fun p hp => h.outside p (List.mem_singleton.1 hp ▸ pagesOf_middle h.mem)) h.root h.parentAt_eq hkey1
    (fun p hp => parentAt_of_pages (h.others p (hP p (h.beside p hp).1).1 fun hpn =>
      (h.beside p hp).2 (hpn ▸ h.mem)))
    ⟨⟨pg', h.page, h.leaf⟩, by rw [slotsAt_eq h.page]; exact h.kids⟩ hsized1
  rwa [slotsAt_eq h.page] at hup1

end Entered

/-- The full page `q` is split: its right half is in the fresh page `nq`. -/
structure Halved (s s2 : IxIndexHandle K) (q nq : Int) (pg' : IxPage K) : Prop where
  fresh : nq = s.nextPageNo
  next : s2.nextPageNo = nq + 1
  root : s2.rootPage = s.rootPage
  full : pg'.slots.length = s.btreeOrder + 1
  left : s2.pages q = some (pg'.setSize ((s.btreeOrder + 1) / 2))
  right : ∃ pgn, s2.pages nq = some pgn ∧ pgn.isLeaf = false ∧
    pgn.slots = pg'.slots.drop ((s.btreeOrder + 1) / 2)
  leftKids : ∀ c ∈ pagesOf (pg'.slots.take ((s.btreeOrder + 1) / 2)), parentAt s2 c = q
  rightKids : ∀ c ∈ pagesOf (pg'.slots.drop ((s.btreeOrder + 1) / 2)), parentAt s2 c = nq
  frame : Frame s s2 [q] (pagesOf pg'.slots)

omit [Inhabited K] in
theorem pagesOf_halves (S : List (K × Rid)) (d : Nat) : pagesOf S = pagesOf (S.take d) ++ pagesOf (S.drop d) := by
  rw [← pagesOf_append, List.take_append_drop]

section

variable {s s1 s2 s' : IxIndexHandle K} {q n nq : Int} {pg pg' : IxPage K} {M1 M2 : List Int}
  {ls ls' : List (List Int)}

theorem Entered.halves (h : Entered s s1 q n pg pg' M1 M2 ls) (hsz : pg'.getSize ≥ s1.getMaxSize) :
    ∃ s2 nq, s1.split q = some (s2, nq) ∧ Halved s s2 q nq pg' := by
  obtain ⟨-, -, hP⟩ := h.alloc.apart
  have ha1 : Alloc s1 (pagesOf pg'.slots ++ [q]) := by
    refine (h.alloc.frame h.frame).sublist (List.Sublist.append ?_ (by simp))
    rw [pagesOf_append, pagesOf_append]
    exact (List.sublist_append_right _ _).trans (List.sublist_append_left _ _)
  have hmax : pg'.slots.length = s.btreeOrder + 1 := by
    have hle := h.length_le
    have hm := h.frame.maxSize
    simp only [getMaxSize, IxPage.getSize] at hm hsz hle
    omega
  have hhalf : pg'.getSize / 2 = (s.btreeOrder + 1) / 2 := by rw [IxPage.getSize, hmax]
  obtain ⟨s2, hsplit, hroot2, hnext2, hq2, hright, hkidsn, hf12⟩ := split_inner h.page h.leaf ha1
  rw [hhalf] at hq2 hright hkidsn hf12
  refine ⟨s2, s1.nextPageNo, hsplit, h.next, hnext2, hroot2.trans h.root, hmax, hq2, hright, fun c hc => ?_, hkidsn, ?_⟩
  · have hc' : c ∈ pagesOf pg'.slots := by
      rw [pagesOf_halves pg'.slots ((s.btreeOrder + 1) / 2)]
      exact List.mem_append_left _ hc
    have hnd := (List.nodup_append.1 ha1.nodup).1
    rw [pagesOf_halves pg'.slots ((s.btreeOrder + 1) / 2)] at hnd
    rw [parentAt_of_pages (hf12.same c ?_ ?_ ?_), h.kids c hc']
    · exact (ha1.range c (List.mem_append_left _ hc')).2
    · simpa using (hP c (pagesOf_middle hc')).1
    · exact fun hd => (List.nodup_append.1 hnd).2.2 c hc c hd rfl
  · refine h.frame.trans hf12 (fun p _ hp => hp) (fun p _ hp => hp) (fun p _ hp => Or.inr ?_)
      fun p _ hp => Or.inr ?_
    · rw [List.mem_singleton.1 hp]
      exact h.mem
    · obtain ⟨e, he, rfl⟩ := List.mem_map.1 hp
      exact List.mem_map.2 ⟨e, List.mem_of_mem_drop he, rfl⟩

omit [Inhabited K] in
theorem Halved.slots_left (hh : Halved s s2 q nq pg') :
    slotsAt s2 q = pg'.slots.take ((s.btreeOrder + 1) / 2) := by
  rw [slotsAt_eq hh.left, IxPage.setSize]

omit [Inhabited K] in
theorem Halved.slots_right (hh : Halved s s2 q nq pg') :
    slotsAt s2 nq = pg'.slots.drop ((s.btreeOrder + 1) / 2) := by
  obtain ⟨pgn, hn, -, hslots⟩ := hh.right
  rw [slotsAt_eq hn, hslots]

theorem Halved.firstKey_left (h : Entered s s1 q n pg pg' M1 M2 ls) (hh : Halved s s2 q nq pg')
    (ho : 2 < s.btreeOrder) : firstKey s2 q = firstKey s q := by
  obtain ⟨d, hd⟩ : ∃ d, (s.btreeOrder + 1) / 2 = d + 1 := ⟨(s.btreeOrder + 1) / 2 - 1, by omega⟩
  rw [firstKey_eq hh.left, firstKey_eq h.old, ← h.key, IxPage.setSize, hd]
  cases hS : pg'.slots <;> simp [IxPage.getKey, hS]

theorem Halved.parentAt_eq (h : Entered s s1 q n pg pg' M1 M2 ls) (hh : Halved s s2 q nq pg') :
    parentAt s2 q = parentAt s q := by
  rw [Index.parentAt_eq hh.left, Index.parentAt_eq h.old, ← h.parent]
  rfl

/-- The levels above do not see the split. -/
theorem Halved.above (h : Entered s s1 q n pg pg' M1 M2 ls) (hh : Halved s s2 q nq pg') :
    Up s2 (view s M1 ++ (firstKey s q, childRid q) :: view s M2) ls :=
  h.view.above h.alloc hh.frame (by simp) (fun p hp => h.outside p (pagesOf_middle hp)) hh.root (hh.parentAt_eq h)

theorem Halved.alloc (h : Entered s s1 q n pg pg' M1 M2 ls) (hh : Halved s s2 q nq pg') :
    Alloc s2 (M1 ++ q :: nq :: M2 ++ ls.flatten) := by
  have ha0 : Alloc s ((M1 ++ [q]) ++ (M2 ++ ls.flatten)) := by
    simpa using h.alloc.sublist (List.sublist_append_right _ _)
  obtain ⟨pgn, hn, -, -⟩ := hh.right
  have hq := ha0.range q (by simp)
  have hnq := hh.fresh
  have hnext := hh.next
  have ha := ha0.fresh hh.fresh (by omega) (by omega) (hh.frame.counted h.alloc.counted) hh.frame.isSome (by simp [hn])
  simpa using ha

/-! What the levels above have become: `s'`, with the pages `M1 ++ q :: nq :: M2` below them. -/

variable (h : Entered s s1 q n pg pg' M1 M2 ls) (hh : Halved s s2 q nq pg')
  (hf : Frame s2 s' ls.flatten (M1 ++ q :: nq :: M2))

include h hh hf

theorem Halved.same : ∀ p ∈ pagesOf (cat s M1 ++ pg'.slots ++ cat s M2), s'.pages p = s2.pages p := by
  intro p hp
  obtain ⟨-, -, hP⟩ := h.alloc.apart
  obtain ⟨h1, h2, h3⟩ := hP p hp
  have hlt := (h.alloc.range p (List.mem_append_left _ hp)).2
  have hnext := hh.frame.grows
  have hnq := hh.fresh
  refine hf.same p (by omega) h3 fun hp' => ?_
  have hpn : p ≠ nq := by omega
  simp only [List.mem_append, List.mem_cons] at hp' h2
  tauto

theorem Halved.core : ∀ p ∈ M1 ++ q :: nq :: M2, coreAt s' p = coreAt s2 p := by
  intro p hp
  have ha := hh.alloc h
  exact hf.core p (ha.range p (List.mem_append_left _ hp)).2 fun hp' =>
    (List.nodup_append.1 ha.nodup).2.2 p hp p hp' rfl

theorem Halved.core_beside : ∀ p ∈ M1 ++ M2, coreAt s' p = coreAt s p := by
  intro p hp
  obtain ⟨hM, -, -⟩ := h.alloc.apart
  rw [hh.core h hf p (by simp at hp ⊢; tauto)]
  exact hh.frame.core p (h.alloc.range p (by simp at hp ⊢; tauto)).2 (by simpa using (hM p hp).1)

theorem Halved.parentAt_beside : ∀ p ∈ pagesOf (cat s M1 ++ cat s M2), parentAt s' p = parentAt s p := by
  intro p hp
  obtain ⟨-, -, hP⟩ := h.alloc.apart
  obtain ⟨hp1, hp2⟩ := h.beside p hp
  rw [parentAt_of_pages (hh.same h hf p hp1)]
  exact parentAt_of_pages (hh.frame.same p (h.alloc.range p (List.mem_append_left _ hp1)).2
    (by simpa using (hP p hp1).1) hp2)

/-- The two halves are pages of the level. -/
theorem Halved.inner : ∀ p ∈ [q, nq], Inner s' p := by
  have hkid : ∀ {d : List (K × Rid)}, (∀ c ∈ pagesOf d, c ∈ pagesOf pg'.slots) → ∀ c ∈ pagesOf d,
      parentAt s' c = parentAt s2 c :=
    fun hd c hc => parentAt_of_pages (hh.same h hf c (pagesOf_middle (hd c hc)))
  have hhalves := pagesOf_halves pg'.slots ((s.btreeOrder + 1) / 2)
  intro p hp
  simp only [List.mem_cons, List.not_mem_nil, or_false] at hp
  rcases hp with rfl | rfl
  · refine Inner.congr (s := s2) ⟨⟨_, hh.left, h.leaf⟩, ?_⟩ (hh.core h hf p (by simp)) ?_
    · rw [hh.slots_left]
      exact hh.leftKids
    · rw [hh.slots_left]
      exact hkid fun c hc => hhalves ▸ List.mem_append_left _ hc
  · obtain ⟨pgn, hn, hleaf, -⟩ := hh.right
    refine Inner.congr (s := s2) ⟨⟨pgn, hn, hleaf⟩, ?_⟩ (hh.core h hf p (by simp)) ?_
    · rw [hh.slots_right]
      exact hh.rightKids
    · rw [hh.slots_right]
      exact hkid fun c hc => hhalves ▸ List.mem_append_right _ hc

theorem Halved.sized (ho : 2 < s.btreeOrder) : ∀ p ∈ [q, nq], Sized s' (lowest s' ls') p := by
  have hmax : s'.getMaxSize = s.btreeOrder + 1 := hf.maxSize.trans hh.frame.maxSize
  have hord : s'.btreeOrder = s.btreeOrder := hf.order.trans hh.frame.order
  have hlow : lowest s' ls' ≤ (s.btreeOrder + 1) / 2 := by
    have hmin := lowest_le_min (s := s') (by omega) ls'
    simpa [getMinSize, getMaxSize, hord] using hmin
  have hfull := hh.full
  intro p hp
  simp only [List.mem_cons, List.not_mem_nil, or_false] at hp
  rcases hp with rfl | rfl
  · rw [Sized, slotsAt_of_core (hh.core h hf p (by simp)), hh.slots_left, hmax, List.length_take]
    omega
  · rw [Sized, slotsAt_of_core (hh.core h hf p (by simp)), hh.slots_right, hmax, List.length_drop]
    omega

/-- The level with the two halves. -/
theorem Halved.up (ho : 2 < s.btreeOrder)
    (hup : Up s' (view s M1 ++ (firstKey s q, childRid q) :: (firstKey s2 nq, childRid nq) :: view s M2) ls') :
    Up s' (cat s M1 ++ pg'.slots ++ cat s M2) ((M1 ++ [q, nq] ++ M2) :: ls') := by
  have hcore := hh.core h hf
  have hord : s'.btreeOrder = s.btreeOrder := hf.order.trans hh.frame.order
  have hcat : cat s' [q, nq] = pg'.slots := by
    simp [slotsAt_of_core (hcore q (by simp)), slotsAt_of_core (hcore nq (by simp)), hh.slots_left, hh.slots_right]
  rw [← hcat]
  refine Up.rebuild (hf.maxSize.trans hh.frame.maxSize) (fun p hp => ?_) (hh.core_beside h hf)
    (hh.parentAt_beside h hf) (fun p hp => ⟨hh.inner h hf p hp, hh.sized h hf ho p hp⟩) ?_
  · obtain ⟨hin, hmin, hmax⟩ := h.view.sized_beside h.level p hp
    have hlow := lowest_le_min (s := s') (by omega) ls'
    simp only [getMinSize, getMaxSize, hord] at hlow hmin
    exact ⟨hin, Nat.le_trans hlow hmin, hmax⟩
  · simpa [firstKey_congr (slotsAt_of_core (hcore q (by simp))),
      firstKey_congr (slotsAt_of_core (hcore nq (by simp))), hh.firstKey_left h ho] using hup

/-- The pages of the tree and its entries with the two halves. -/
theorem Halved.alloc_above (ha : Alloc s' (M1 ++ q :: nq :: M2 ++ ls'.flatten)) (hfresh : Fresh s2 ls ls') :
    Alloc s' (pagesOf (cat s M1 ++ pg'.slots ++ cat s M2) ++ ((M1 ++ [q, nq] ++ M2) :: ls').flatten) := by
  obtain ⟨-, -, hP⟩ := h.alloc.apart
  refine Alloc.append (((h.alloc.sublist (List.sublist_append_left _ _)).frame hh.frame).frame hf)
    (by simpa using ha) fun p hp hp' => ?_
  have hlt := (h.alloc.range p (List.mem_append_left _ hp)).2
  have hnext := hh.frame.grows
  have hnq := hh.fresh
  obtain ⟨h1, h2, h3⟩ := hP p hp
  simp only [List.flatten_cons, List.mem_append, List.mem_cons, List.not_mem_nil] at hp' h2
  rcases hp' with ((hp' | hp' | hp' | hp') | hp') | hp'
  · exact h2 (Or.inl hp')
  · exact h1 hp'
  · omega
  · exact hp'
  · exact h2 (Or.inr hp')
  · rcases hfresh p hp' with hp' | hp'
    · exact h3 hp'
    · omega

omit h [Inhabited K] in
theorem Halved.frame_above : Frame s s' ((M1 ++ q :: M2) :: ls).flatten
    (pagesOf (cat s M1 ++ pg'.slots ++ cat s M2)) := by
  refine hh.frame.trans hf (fun p _ hp => by simp [List.mem_singleton.1 hp]) (fun p _ hp => by simp [hp])
    (fun p _ hp => Or.inr (pagesOf_middle hp)) fun p hp hp' => Or.inl ?_
  have hnq := hh.fresh
  have hpn : p ≠ nq := by omega
  simp only [List.flatten_cons, List.mem_append, List.mem_cons] at hp' ⊢
  tauto

omit h hf [Inhabited K] in
theorem Halved.fresh_above (hfresh : Fresh s2 ls ls') :
    Fresh s ((M1 ++ q :: M2) :: ls) ((M1 ++ [q, nq] ++ M2) :: ls') := by
  intro p hp
  have hnext := hh.frame.grows
  have hnq := hh.fresh
  simp only [List.flatten_cons, List.mem_append, List.mem_cons, List.not_mem_nil] at hp ⊢
  rcases hp with ((hp | hp | hp | hp) | hp) | hp
  · simp [hp]
  · simp [hp]
  · omega
  · exact hp.elim
  · simp [hp]
  · rcases hfresh p hp with hp | hp
    · simp [hp]
    · omega

end

theorem insertIntoParent_spec : ∀ (ls : List (List Int)) (fuel : Nat) (s : IxIndexHandle K)
    (x n : Int) (KA KB : List (K × Rid)) (k kn : K), k = firstKey s x →
    Up s (KA ++ (k, childRid x) :: KB) ls →
    Alloc s (pagesOf (KA ++ (k, childRid x) :: (kn, childRid n) :: KB) ++ ls.flatten) →
    2 < s.btreeOrder → ls.length < fuel →
    ∃ s' ls', insertIntoParent fuel s x kn n = some s' ∧
      Up s' (KA ++ (k, childRid x) :: (kn, childRid n) :: KB) ls' ∧
      Alloc s' (pagesOf (KA ++ (k, childRid x) :: (kn, childRid n) :: KB) ++ ls'.flatten) ∧
      Frame s s' ls.flatten (pagesOf (KA ++ (k, childRid x) :: (kn, childRid n) :: KB)) ∧
      Fresh s ls ls' := by
  intro ls
  induction ls with
  | nil =>
      intro fuel s x n KA KB k kn hk hup ha ho hfuel
      obtain ⟨fuel, rfl⟩ : ∃ n, fuel = n + 1 := ⟨fuel - 1, by omega⟩
      obtain ⟨k', hks, hpar⟩ := hup
      have hx : KA = [] ∧ KB = [] ∧ x = s.rootPage := by
        cases KA <;> simp_all [childRid]
      obtain ⟨rfl, rfl, hroot⟩ := hx
      obtain ⟨s', r, hrun, hr, hup', ha', hf⟩ := insertIntoParent_root kn fuel
        hk hroot (hroot ▸ hpar) (by simpa [pagesOf, childRid] using ha) ho
      refine ⟨s', [[r]], hrun, hup', by simpa [pagesOf, childRid] using ha',
        by simpa [pagesOf, childRid] using hf, fun p hp => Or.inr ?_⟩
      have : p = r := by simpa using hp
      omega
  | cons m ls ih =>
      intro fuel s x n KA KB k kn hk hup ha ho hfuel
      obtain ⟨fuel, rfl⟩ : ∃ n, fuel = n + 1 := ⟨fuel - 1, by omega⟩
      obtain ⟨M1, q, M2, pg, pg', s1, rfl, hentries, h, hrun⟩ := insertIntoParent_enter fuel hup ha
      rw [hentries] at ha ⊢
      rw [hrun]
      by_cases hsz : pg'.getSize ≥ s1.getMaxSize
      · obtain ⟨s2, nq, hsplit, hh⟩ := h.halves hsz
        have hpages : pagesOf (view s M1 ++ (firstKey s q, childRid q) ::
          (firstKey s2 nq, childRid nq) :: view s M2) = M1 ++ q :: nq :: M2 := by simp [childRid]
        have ho2 : 2 < s2.btreeOrder := by
          rw [hh.frame.order]
          exact ho
        obtain ⟨s', ls', hrun', hup', ha', hf', hfresh⟩ := ih fuel s2 q nq (view s M1) (view s M2)
          (firstKey s q) (firstKey s2 nq) (hh.firstKey_left h ho).symm (hh.above h)
          (by rw [hpages]; exact hh.alloc h) ho2 (by simpa using hfuel)
        rw [hpages] at ha' hf'
        obtain ⟨pgn, hn, -, -⟩ := hh.right
        refine ⟨s', (M1 ++ [q, nq] ++ M2) :: ls', ?_, hh.up h hf' ho hup', hh.alloc_above h hf' ha' hfresh,
          hh.frame_above hf', hh.fresh_above hfresh⟩
        rw [if_pos hsz, hsplit, Option.bind_some, hn, Option.bind_some, ← firstKey_eq hn]
        exact hrun'
      · rw [if_neg hsz]
        refine ⟨s1, _, rfl, h.fits (Nat.lt_of_not_le hsz), ha.frame h.frame, ?_, fun p hp => Or.inl hp⟩
        exact h.frame.mono (by simp) fun p hp => Or.inr (List.mem_singleton.1 hp ▸ pagesOf_middle h.mem)

end

end Rmdb.Index
