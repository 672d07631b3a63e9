import Rmdb.Index.Tree

/-!
# Inserting an entry

`insert_entry` keeps the tree invariant and inserts the entry at its place unless the key is
there (`insertEntry_spec`): the leaf takes the entry, `maintain_parent` repairs the keys above
when it became the first one, and a full leaf is split and its new neighbour entered above.
-/

namespace Rmdb.Index

open IxIndexHandle

section
variable {K : Type} [LinearOrder K]

/-- The leaf level does not depend on the parent fields. -/
theorem Leaves.frame {s s' : IxIndexHandle K} {l : List Int} (h : Leaves s l)
    (hc : ∀ p ∈ ixLeafHeaderPage :: l, coreAt s' p = coreAt s p)
    (hf : s'.firstLeaf = s.firstLeaf) (hl : s'.lastLeaf = s.lastLeaf) : Leaves s' l where
  leaf := fun p hp => by
    obtain ⟨pg, hpg, hleaf⟩ := h.leaf p hp
    have := hc p (by simp [hp])
    simp only [coreAt, hpg, Option.map_some, Option.map_eq_some_iff] at this
    obtain ⟨pg', hpg', heq⟩ := this
    exact ⟨pg', hpg', by simpa [IxPage.setParentPageNo, hleaf] using congrArg IxPage.isLeaf heq⟩
  sorted := by
    rw [cat_congr fun p hp => slotsAt_of_core (hc p (by simp [hp]))]
    exact h.sorted
  header := by
    have := hc ixLeafHeaderPage (by simp)
    have hh := h.header
    simp only [coreAt] at this
    cases h1 : s.pages ixLeafHeaderPage <;> cases h2 : s'.pages ixLeafHeaderPage <;> simp_all
  ring := by
    refine h.ring.congr (fun p hp => (links_of_core (hc p hp)).1) fun p hp => ?_
    refine (links_of_core (hc p ?_)).2
    simp only [List.mem_append, List.mem_cons, List.not_mem_nil, or_false] at hp ⊢
    tauto
  first := by rw [hf]; exact h.first
  last := by rw [hl]; exact h.last

/-- New entries in one leaf. -/
theorem Leaves.setSlots {s : IxIndexHandle K} {l : List Int} {x : Int} {pg : IxPage K}
    {S : List (K × Rid)} (h : Leaves s l) (hx : s.pages x = some pg)
    (hs : Increasing (cat (s.setNode x { pg with slots := S }) l)) :
    Leaves (s.setNode x { pg with slots := S }) l where
  leaf := fun p hp => by
    obtain ⟨pg', hpg', hleaf⟩ := h.leaf p hp
    by_cases hpx : p = x
    · obtain rfl : pg = pg' := by simpa [hpx, hx] using hpg'
      exact ⟨{ pg with slots := S }, by simp [hpx], hleaf⟩
    · exact ⟨pg', by simp [hpx, hpg'], hleaf⟩
  sorted := hs
  header := by
    simp only [setNode_pages]
    split
    · rfl
    · exact h.header
  ring := by
    refine h.ring.congr (fun p _ => ?_) fun p _ => ?_ <;> by_cases hpx : p = x <;>
      simp [nextAt, prevAt, hpx, hx]
  first := h.first
  last := h.last

omit [LinearOrder K] in
theorem setNode_self {s : IxIndexHandle K} {p : Int} {pg : IxPage K} (h : s.pages p = some pg) :
    s.setNode p pg = s := by
  obtain ⟨_, _, _, _, _, _, _, _, _, pages⟩ := s
  simp only [setNode]
  congr 1
  funext q
  by_cases hq : q = p
  · simp only [hq, if_true]
    exact h.symm
  · simp [hq]

variable [Inhabited K]

theorem Tree.setPins {s : IxIndexHandle K} {l : List Int} {ls : List (List Int)} (h : Tree s l ls)
    (c n : Int) (p : Option Int) (hp : ∀ q, p = some q → q = n) :
    Tree { s with cachedLeafNo := c, pinnedLeafNo := n, pinnedLeafPage := p } l ls where
  order := h.order
  leaves := h.leaves.frame (fun _ _ => rfl) rfl rfl
  sized := h.sized
  up := h.up.frame rfl rfl (fun _ _ => rfl) fun _ _ => rfl
  alloc := ⟨h.alloc.nodup, h.alloc.range, h.alloc.isSome, h.alloc.counted⟩
  pinned := hp

/-! ## The leaf for an insert -/

/-- The cached last leaf is used only for keys that a search would bring to it. -/
theorem findInsertLeaf_spec {s : IxIndexHandle K} {l : List Int} {ls : List (List Int)}
    (h : Tree s l ls) (k : K) : ∃ x owned A B pg, LeafFor s l k x A B pg ∧
      s.findInsertLeaf k = some (x, owned) := by
  obtain ⟨x, A, B, pg, hx, hrun⟩ := findLeafPage_spec h k
  have hsearch : (do
      let leafNo ← findLeafPage false s.rounds s k s.rootPage
      some (leafNo, false)) = some (x, false) := by simp [hrun]
  have hlast : s.lastLeaf ∈ l := List.mem_of_getLast? h.leaves.last
  obtain ⟨c, hc, hcl⟩ := h.leaves.leaf s.lastLeaf hlast
  have hfetch : s.fetchNode s.lastLeaf = some c := by rw [h.alloc.fetchNode (by simp [hlast]), hc]
  have hfast : fastLeaf c k = true → ∃ A B pg, LeafFor s l k s.lastLeaf A B pg := by
    intro hf
    simp only [fastLeaf, Bool.and_eq_true, decide_eq_true_eq] at hf
    refine h.leafFor ⟨view s l.dropLast, firstKey s s.lastLeaf, [], ?_, Or.inr ?_, by simp⟩
    · have hl := List.dropLast_append_getLast? _ h.leaves.last
      conv_lhs => rw [← hl]
      simp
    · rw [firstKey_eq hc]
      exact hf.2
  simp only [findInsertLeaf, hsearch]
  by_cases hcached : s.cachedLeafNo ≠ ixNoPage ∧ s.cachedLeafNo = s.lastLeaf
  · rw [if_pos hcached, hcached.2]
    cases hpin : (if s.pinnedLeafNo = s.lastLeaf then s.pinnedLeafPage else none) with
    | some p =>
        have hp : p = s.lastLeaf := by
          split at hpin
          · next hno => rw [h.pinned p hpin, hno]
          · cases hpin
        simp only [hp, hc, Option.bind_eq_bind, Option.bind_some]
        by_cases hf : fastLeaf c k = true
        · obtain ⟨A', B', pg', hx'⟩ := hfast hf
          exact ⟨_, true, A', B', pg', hx', by rw [if_pos hf]⟩
        · exact ⟨x, false, A, B, pg, hx, by rw [if_neg hf]⟩
    | none =>
        simp only [hfetch, Option.bind_eq_bind, Option.bind_some]
        by_cases hf : fastLeaf c k = true
        · obtain ⟨A', B', pg', hx'⟩ := hfast hf
          exact ⟨_, false, A', B', pg', hx', by rw [if_pos hf]⟩
        · exact ⟨x, false, A, B, pg, hx, by rw [if_neg hf]⟩
  · exact ⟨x, false, A, B, pg, hx, by rw [if_neg hcached]⟩

/-! ## New entries in one leaf -/

section
variable {s : IxIndexHandle K} {l : List Int} {ls : List (List Int)} (h : Tree s l ls)
  {x : Int} {A B : List Int} (hl : l = A ++ x :: B) {pg : IxPage K} (hpg : s.pages x = some pg)
  {S : List (K × Rid)} (hs : Increasing (cat s A ++ S ++ cat s B))
include h hl

theorem Tree.leaf_apart : (∀ p ∈ A ++ B, p ≠ x) ∧ x ∉ ls.flatten ∧
    ∀ p ∈ l, p ∉ ls.flatten ∧ p ≠ ixLeafHeaderPage := by
  have hnd := h.alloc.nodup
  have hr := h.alloc.range
  rw [List.nodup_append] at hnd
  refine ⟨fun p hp hpx => ?_, ?_, fun p hp => ⟨?_, ?_⟩⟩
  · rw [hl] at hnd
    simp only [List.nodup_append, List.nodup_cons, List.mem_append, List.mem_cons] at hnd hp
    grind
  · exact fun hx => hnd.2.2 x (by simp [hl]) x hx rfl
  · exact fun hp' => hnd.2.2 p hp p hp' rfl
  · have := hr p (by simp [hp])
    simp only [ixLeafHeaderPage]
    omega

include hpg hs

/-- A leaf with new entries: the level is in order, the keys above may be out of date. -/
theorem Tree.rewriteLeaf : ∃ s1, s1 = s.setNode x { pg with slots := S } ∧
    cat s1 l = cat s A ++ S ++ cat s B ∧ Leaves s1 l ∧ Alloc s1 (l ++ ls.flatten) ∧
    Up s1 (view s A ++ (firstKey s x, childRid x) :: view s B) ls ∧
    (∀ p ∈ A ++ B, s1.pages p = s.pages p) := by
  obtain ⟨hne, hxls, hlls⟩ := h.leaf_apart hl
  refine ⟨_, rfl, ?_⟩
  have hpages : ∀ p, p ≠ x → (s.setNode x { pg with slots := S }).pages p = s.pages p :=
    fun p hp => by simp [hp]
  have hx1 : (s.setNode x { pg with slots := S }).pages x = some { pg with slots := S } := by simp
  have hcat : cat (s.setNode x { pg with slots := S }) l = cat s A ++ S ++ cat s B := by
    rw [hl, cat_append, cat_cons, slotsAt_eq hx1, cat_congr (s := s) (l := A) fun p hp =>
      slotsAt_of_pages (hpages p (hne p (by simp [hp]))), cat_congr (s := s) (l := B) fun p hp =>
      slotsAt_of_pages (hpages p (hne p (by simp [hp]))), List.append_assoc]
  refine ⟨hcat, h.leaves.setSlots hpg (by rwa [hcat]), h.alloc.frame (frame_setNode _ _ _), ?_,
    fun p hp => hpages p (hne p hp)⟩
  have hup := h.up
  rw [hl, view_append, view_cons] at hup
  refine hup.frame rfl rfl (fun p hp => hpages p fun hpx => hxls (hpx ▸ hp)) fun p _ => ?_
  by_cases hpx : p = x
  · rw [hpx, parentAt_eq hx1, parentAt_eq hpg]
  · exact parentAt_of_pages (hpages p hpx)

/-- `maintain_parent` then brings the keys above up to date. -/
theorem Tree.rewriteLeaf_maintain : ∃ s2,
    maintainParent (s.setNode x { pg with slots := S }).rounds
      (s.setNode x { pg with slots := S }) x = some s2 ∧
    cat s2 l = cat s A ++ S ++ cat s B ∧ Leaves s2 l ∧ Alloc s2 (l ++ ls.flatten) ∧
    Up s2 (view s2 l) ls ∧ (∀ p ∈ A ++ B, s2.pages p = s.pages p) ∧
    s2.pages x = some { pg with slots := S } ∧ fixed s2 = fixed s := by
  obtain ⟨s1, hs1, hcat, hleaves, halloc, hup, hother⟩ := h.rewriteLeaf hl hpg hs
  obtain ⟨hne, hxls, hlls⟩ := h.leaf_apart hl
  have hal1 : Alloc s1 (pagesOf (view s A ++ (firstKey s x, childRid x) :: view s B) ++
      ls.flatten) := by
    simpa [hl, childRid] using halloc
  obtain ⟨s2, hrun, hup2, hf⟩ := maintainParent_spec ls s1.rounds s1 x _ _ _ hup hal1 (by
    rw [hs1]
    exact h.length_lt)
  have hsame : ∀ p ∈ l, s2.pages p = s1.pages p := fun p hp =>
    hf.same p (halloc.range p (by simp [hp])).2 (hlls p hp).1 (by simp)
  have hhdr : s2.pages ixLeafHeaderPage = s1.pages ixLeafHeaderPage := by
    have hx := halloc.range x (by simp [hl])
    refine hf.same _ (by simp only [ixLeafHeaderPage]; omega) (fun hp => ?_) (by simp)
    have := (halloc.range _ (List.mem_append_right _ hp)).1
    simp [ixLeafHeaderPage] at this
  have hslots : ∀ p ∈ l, slotsAt s2 p = slotsAt s1 p := fun p hp => slotsAt_of_pages (hsame p hp)
  have hfix1 : fixed s1 = fixed s := by rw [hs1]; rfl
  refine ⟨s2, by rw [← hs1]; exact hrun, (cat_congr hslots).trans hcat, ?_, halloc.frame hf, ?_,
    fun p hp => ?_, ?_, hf.fixed.trans hfix1⟩
  · refine hleaves.frame (fun p hp => ?_) ?_ ?_
    · rcases List.mem_cons.1 hp with rfl | hp
      · simp [coreAt, hhdr]
      · simp [coreAt, hsame p hp]
    · exact congrArg (fun t => t.2.1) hf.fixed
    · exact congrArg (fun t => t.2.2.1) hf.fixed
  · have hA : view s1 A = view s A := view_congr fun p hp =>
      slotsAt_of_pages (hother p (by simp [hp]))
    have hB : view s1 B = view s B := view_congr fun p hp =>
      slotsAt_of_pages (hother p (by simp [hp]))
    rw [view_congr hslots, hl, view_append, view_cons, hA, hB]
    exact hup2
  · rw [hsame p (by simp only [hl, List.mem_append, List.mem_cons] at hp ⊢; tauto), hother p hp]
  · rw [hsame x (by simp [hl]), hs1]
    simp

end

/-! ## Splitting a leaf -/

/-- The state after leaf `x` gave `S2` to the fresh page `n`, with `y` the page after `x`. -/
def splitLeafState (s : IxIndexHandle K) (x y n : Int) (pg ypg : IxPage K)
    (S1 S2 : List (K × Rid)) : IxIndexHandle K :=
  { s with
    numPages := s.numPages + 1, nextPageNo := s.nextPageNo + 1
    lastLeaf := if x = s.lastLeaf then n else s.lastLeaf
    pages := fun p =>
      if p = y then some { ypg with prevLeaf := n }
      else if p = x then some ⟨pg.parent, true, pg.prevLeaf, n, S1⟩
      else if p = n then some ⟨pg.parent, true, x, y, S2⟩
      else s.pages p }

omit [LinearOrder K] [Inhabited K] in
theorem splitLeafState_pages {s s' : IxIndexHandle K} {x y n : Int} {pg ypg : IxPage K}
    {S1 S2 : List (K × Rid)} (hs' : s' = splitLeafState s x y n pg ypg S1 S2) (hyx : y ≠ x)
    (hyn : y ≠ n) (hxn : x ≠ n) :
    s'.pages x = some ⟨pg.parent, true, pg.prevLeaf, n, S1⟩ ∧
    s'.pages n = some ⟨pg.parent, true, x, y, S2⟩ ∧
    s'.pages y = some { ypg with prevLeaf := n } ∧
    ∀ p, p ≠ x → p ≠ y → p ≠ n → s'.pages p = s.pages p := by
  refine ⟨?_, ?_, ?_, fun p h1 h2 h3 => ?_⟩
  · simp [hs', splitLeafState, hyx.symm]
  · simp [hs', splitLeafState, hyn.symm, hxn.symm]
  · simp [hs', splitLeafState]
  · simp [hs', splitLeafState, h1, h2, h3]

section
variable {s : IxIndexHandle K} {A B ps : List Int} {x : Int} {pg : IxPage K}
  (hL : Leaves s (A ++ x :: B)) (ha : Alloc s ((A ++ x :: B) ++ ps)) (hpg : s.pages x = some pg)
include hL ha hpg

omit [Inhabited K] in
/-- The page after `x` is the next leaf or the leaf header. -/
theorem Leaves.next : ∃ y ypg, pg.nextLeaf = y ∧ y = (B ++ [ixLeafHeaderPage]).head (by simp) ∧
    s.pages y = some ypg ∧ 1 ≤ y ∧ y < s.nextPageNo ∧ y ∉ A ++ [x] := by
  have hring := (links_append.1 hL.ring).2.next
  rw [nextAt_eq hpg] at hring
  obtain ⟨hx2, hxn⟩ := ha.range x (by simp)
  have hnd := (List.nodup_append.1 ha.nodup).1
  cases B with
  | nil =>
      obtain ⟨ypg, hy⟩ := Option.isSome_iff_exists.1 hL.header
      refine ⟨_, ypg, hring, rfl, by simpa using hy, ?_, ?_, fun hy => ?_⟩
      · simp [ixLeafHeaderPage]
      · simp only [List.nil_append, List.head_cons, ixLeafHeaderPage]
        omega
      · have := (ha.range _ (List.mem_append_left _ (by simpa using hy))).1
        simp [ixLeafHeaderPage] at this
  | cons b B =>
      obtain ⟨ypg, hy, -⟩ := hL.leaf b (by simp)
      have hb := ha.range b (by simp)
      refine ⟨_, ypg, hring, rfl, by simpa using hy, ?_, ?_, ?_⟩ <;>
        simp only [List.cons_append, List.head_cons]
      · omega
      · omega
      · simp only [List.nodup_append, List.nodup_cons, List.mem_append, List.mem_cons] at hnd ⊢
        grind

theorem split_leaf_eq (hleaf : pg.isLeaf = true) : ∃ y ypg,
    y = (B ++ [ixLeafHeaderPage]).head (by simp) ∧ s.pages y = some ypg ∧
    y ∉ A ++ [x] ∧ y < s.nextPageNo ∧
    s.split x = some (splitLeafState s x y s.nextPageNo pg ypg (pg.slots.take (pg.getSize / 2))
      (pg.slots.drop (pg.getSize / 2)), s.nextPageNo) := by
  obtain ⟨y, ypg, hnext, hy, hypg, h1, hlt, hyA⟩ := hL.next ha hpg
  refine ⟨y, ypg, hy, hypg, hyA, hlt, ?_⟩
  have hyx : y ≠ x := fun h => hyA (by simp [h])
  have hyn : y ≠ s.nextPageNo := by omega
  have hgt : y > ixNoPage := by simp only [ixNoPage]; omega
  obtain ⟨s1, hs1⟩ : ∃ s1, s1 = (s.createNode.1.setNode s.nextPageNo
      ⟨pg.parent, true, x, y, pg.slots.drop (pg.getSize / 2)⟩).setNode x
      ⟨pg.parent, true, pg.prevLeaf, s.nextPageNo, pg.slots.take (pg.getSize / 2)⟩ := ⟨_, rfl⟩
  have hfetch : s1.fetchNode y = some ypg := by
    rw [fetchNode_eq (by omega) (by
      have := ha.counted
      simp only [hs1, createNode, setNode_numPages]
      omega)]
    simp [hs1, createNode, hyx, hyn, hypg]
  have hn : s.createNode.2 = s.nextPageNo := rfl
  simp only [split, hpg, Option.bind_eq_bind, Option.bind_some]
  rw [if_pos (by simpa [IxPage.setSize] using hleaf)]
  rw [if_pos (by simpa [IxPage.setSize, hnext] using hgt)]
  simp only [IxPage.insertPairs, IxPage.setSize, IxPage.setNextLeaf, IxPage.setPrevLeaf, hnext,
    IxPage.zero, hleaf, List.take_nil, List.drop_nil, List.nil_append, List.append_nil, hn, ← hs1,
    hfetch, Option.bind_some]
  congr 2
  simp only [splitLeafState, hs1, setNode, createNode]
  split
  · congr 1
    funext p
    split_ifs <;> rfl
  · congr 1
    funext p
    split_ifs <;> rfl

omit [Inhabited K] in
theorem splitLeafState_leaves {y : Int} {ypg : IxPage K} {S1 S2 : List (K × Rid)}
    (hy : y = (B ++ [ixLeafHeaderPage]).head (by simp))
    (hypg : s.pages y = some ypg) (hyA : y ∉ A ++ [x]) (hyn : y < s.nextPageNo)
    (hS : pg.slots = S1 ++ S2) :
    Leaves (splitLeafState s x y s.nextPageNo pg ypg S1 S2) (A ++ x :: s.nextPageNo :: B) ∧
    cat (splitLeafState s x y s.nextPageNo pg ypg S1 S2) (A ++ x :: s.nextPageNo :: B) =
      cat s (A ++ x :: B) := by
  obtain ⟨n, hn⟩ : ∃ n, n = s.nextPageNo := ⟨_, rfl⟩
  rw [← hn] at hyn ⊢
  obtain ⟨s', hs'⟩ : ∃ s', s' = splitLeafState s x y n pg ypg S1 S2 := ⟨_, rfl⟩
  rw [← hs']
  have hyx : y ≠ x := fun h => hyA (by simp [h])
  have hlt : ∀ p ∈ A ++ x :: B, p < n := fun p hp => hn ▸ (ha.range p (by simp at hp ⊢; tauto)).2
  have hxn : x ≠ n := by have := hlt x (by simp); omega
  have hnd := (List.nodup_append.1 ha.nodup).1
  obtain ⟨hpx, hpn, hpy, hpo⟩ := splitLeafState_pages hs' hyx (by omega) hxn
  have hnext : ∀ p, p ≠ x → p ≠ n → nextAt s' p = nextAt s p := by
    intro p h1 h3
    by_cases h2 : p = y
    · rw [h2, nextAt_eq hpy, nextAt_eq hypg]
    · simp [nextAt, hpo p h1 h2 h3]
  have hprev : ∀ p, p ≠ y → p ≠ n → prevAt s' p = prevAt s p := by
    intro p h2 h3
    by_cases h1 : p = x
    · rw [h1, prevAt_eq hpx, prevAt_eq hpg]
    · simp [prevAt, hpo p h1 h2 h3]
  have hslots : ∀ p, p ≠ x → p ≠ n → slotsAt s' p = slotsAt s p := by
    intro p h1 h3
    by_cases h2 : p = y
    · rw [h2, slotsAt_eq hpy, slotsAt_eq hypg]
    · simp [slotsAt, hpo p h1 h2 h3]
  have hAB : ∀ p ∈ A ++ B, p ≠ x ∧ p ≠ n := by
    intro p hp
    have hp' : p ∈ A ++ x :: B := by simp at hp ⊢; tauto
    have := hlt p hp'
    refine ⟨fun h => ?_, by omega⟩
    simp only [List.nodup_append, List.nodup_cons, List.mem_append, List.mem_cons] at hnd hp
    grind
  have hcat : cat s' (A ++ x :: n :: B) = cat s (A ++ x :: B) := by
    have hA : cat s' A = cat s A := cat_congr fun p hp =>
      hslots p (hAB p (by simp [hp])).1 (hAB p (by simp [hp])).2
    have hB : cat s' B = cat s B := cat_congr fun p hp =>
      hslots p (hAB p (by simp [hp])).1 (hAB p (by simp [hp])).2
    simp [hA, hB, slotsAt_eq hpx, slotsAt_eq hpn, slotsAt_eq hpg, hS]
  have hhdr : ixLeafHeaderPage ≠ x ∧ ixLeafHeaderPage ≠ n := by
    have h2 := (ha.range x (by simp)).1
    have := hlt x (by simp)
    simp only [ixLeafHeaderPage]
    omega
  obtain ⟨hr1, hr2⟩ := links_append.1 hL.ring
  refine ⟨⟨fun p hp => ?_, ?_, ?_, ?_, ?_, ?_⟩, hcat⟩
  · by_cases h1 : p = x
    · exact ⟨_, h1 ▸ hpx, rfl⟩
    by_cases h2 : p = n
    · exact ⟨_, h2 ▸ hpn, rfl⟩
    · obtain ⟨pg', hpg', hl'⟩ := hL.leaf p (by simp [h1, h2] at hp ⊢; tauto)
      by_cases h3 : p = y
      · obtain rfl : ypg = pg' := by simpa [h3, hypg] using hpg'
        exact ⟨{ ypg with prevLeaf := n }, h3 ▸ hpy, hl'⟩
      · exact ⟨pg', (hpo p h1 h3 h2).trans hpg', hl'⟩
  · rw [hcat]
    exact hL.sorted
  · by_cases h3 : ixLeafHeaderPage = y
    · rw [h3, hpy]
      rfl
    · rw [hpo _ hhdr.1 h3 hhdr.2]
      exact hL.header
  · -- the ring: up to `x` as before, then `n`, then from the old next page on as before
    refine links_append.2 ⟨hr1.congr (fun p hp => ?_) fun p hp => ?_, ?_⟩
    · rcases List.mem_cons.1 hp with rfl | hp
      · exact hnext _ hhdr.1 hhdr.2
      · exact hnext p (hAB p (by simp [hp])).1 (hAB p (by simp [hp])).2
    · have hpl := hlt p (by simp at hp ⊢; tauto)
      exact hprev p (fun h => hyA (h ▸ hp)) (by omega)
    · refine ⟨⟨by rw [nextAt_eq hpx], by rw [prevAt_eq hpn]⟩, ?_⟩
      cases B with
      | nil =>
          have hy' : ixLeafHeaderPage = y := by simpa using hy.symm
          exact ⟨by rw [nextAt_eq hpn, hy'], by rw [hy', prevAt_eq hpy]⟩
      | cons b B =>
          obtain rfl : b = y := by simpa using hy.symm
          refine ⟨⟨by rw [nextAt_eq hpn], by rw [prevAt_eq hpy]⟩, hr2.2.congr (fun p hp => ?_)
            fun p hp => ?_⟩
          · exact hnext p (hAB p (by simp at hp ⊢; tauto)).1 (hAB p (by simp at hp ⊢; tauto)).2
          · rcases List.mem_append.1 hp with hp | hp
            · refine hprev p (fun h => ?_) (hAB p (by simp [hp])).2
              simp only [List.nodup_append, List.nodup_cons, List.mem_cons] at hnd
              grind
            · obtain rfl : p = ixLeafHeaderPage := by simpa using hp
              refine hprev _ (fun h => ?_) hhdr.2
              have := (ha.range b (by simp)).1
              rw [← h] at this
              simp [ixLeafHeaderPage] at this
  · have hf := hL.first
    rw [hs']
    cases A <;> simpa [splitLeafState] using hf
  · have hl := hL.last
    rw [hs']
    simp only [splitLeafState]
    rcases List.eq_nil_or_concat B with rfl | ⟨B', b, rfl⟩
    · have hxl : x = s.lastLeaf := by simpa using hl
      rw [if_pos hxl]
      simp
    · have h1 : A ++ x :: B'.concat b = (A ++ x :: B') ++ [b] := by simp
      have h2 : A ++ x :: n :: B'.concat b = (A ++ x :: n :: B') ++ [b] := by simp
      rw [h1, List.getLast?_concat] at hl
      have hbl : b = s.lastLeaf := by simpa using hl
      have hxl : x ≠ s.lastLeaf := by
        rw [← hbl]
        exact fun h => (hAB b (by simp)).1 h.symm
      rw [if_neg hxl, ← hbl, h2, List.getLast?_concat]

end

/-- A tree whose leaf `x` has taken one entry and may be full. -/
structure Grown (s : IxIndexHandle K) (l : List Int) (x : Int) (ls : List (List Int)) : Prop where
  order : 2 < s.btreeOrder
  leaves : Leaves s l
  mem : x ∈ l
  sized : ∀ p ∈ l, p ≠ x → Sized s (if ls = [] then 0 else s.getMinSize) p
  least : (if ls = [] then 0 else s.getMinSize) ≤ (slotsAt s x).length
  most : (slotsAt s x).length ≤ s.getMaxSize
  up : Up s (view s l) ls
  alloc : Alloc s (l ++ ls.flatten)
  pinned : ∀ p, s.pinnedLeafPage = some p → p = s.pinnedLeafNo

theorem Grown.tree {s : IxIndexHandle K} {l : List Int} {x : Int} {ls : List (List Int)}
    (g : Grown s l x ls) (hlt : (slotsAt s x).length < s.getMaxSize) : Tree s l ls where
  order := g.order
  leaves := g.leaves
  sized := fun p hp => by
    by_cases hpx : p = x
    · rw [hpx]
      exact ⟨g.least, hlt⟩
    · exact g.sized p hp hpx
  up := g.up
  alloc := g.alloc
  pinned := g.pinned

theorem Grown.setPins {s : IxIndexHandle K} {l : List Int} {x : Int} {ls : List (List Int)}
    (g : Grown s l x ls) (n : Int) (p : Option Int) (hp : ∀ q, p = some q → q = n) :
    Grown { s with pinnedLeafNo := n, pinnedLeafPage := p } l x ls where
  order := g.order
  leaves := g.leaves.frame (fun _ _ => rfl) rfl rfl
  mem := g.mem
  sized := g.sized
  least := g.least
  most := g.most
  up := g.up.frame rfl rfl (fun _ _ => rfl) fun _ _ => rfl
  alloc := ⟨g.alloc.nodup, g.alloc.range, g.alloc.isSome, g.alloc.counted⟩
  pinned := hp

/-- The full leaf `x` is split: its right half is in the fresh leaf `n`. -/
structure SplitLeaf (s s1 : IxIndexHandle K) (A B : List Int) (x n : Int) (ls : List (List Int)) : Prop where
  order : s1.btreeOrder = s.btreeOrder
  pages : s1.numPages = s.numPages + 1
  pinnedNo : s1.pinnedLeafNo = s.pinnedLeafNo
  pinned : s1.pinnedLeafPage = s.pinnedLeafPage
  leaves : Leaves s1 (A ++ x :: n :: B)
  cat_eq : cat s1 (A ++ x :: n :: B) = cat s (A ++ x :: B)
  left : (slotsAt s1 x).length = (s.btreeOrder + 1) / 2
  right : (slotsAt s1 n).length = s.btreeOrder + 1 - (s.btreeOrder + 1) / 2
  others : ∀ p ∈ A ++ B, slotsAt s1 p = slotsAt s p
  key : firstKey s1 x = firstKey s x
  up : Up s1 (view s A ++ (firstKey s x, childRid x) :: view s B) ls
  alloc : Alloc s1 ((A ++ x :: n :: B) ++ ls.flatten)

/-- `split` of a full leaf. -/
theorem Grown.halves {s : IxIndexHandle K} {A B : List Int} {x : Int} {ls : List (List Int)}
    (g : Grown s (A ++ x :: B) x ls) (hmax : (slotsAt s x).length = s.getMaxSize) :
    ∃ s1 n npg, s.split x = some (s1, n) ∧ s1.pages n = some npg ∧ SplitLeaf s s1 A B x n ls := by
  obtain ⟨pg, hpg, hleaf⟩ := g.leaves.leaf x (by simp)
  obtain ⟨y, ypg, hy, hypg, hyA, hyn, hsplit⟩ := split_leaf_eq g.leaves g.alloc hpg hleaf
  have ho := g.order
  have hlen : pg.getSize = s.btreeOrder + 1 := by
    rw [slotsAt_eq hpg] at hmax
    exact hmax
  obtain ⟨S1, hS1⟩ : ∃ S, S = pg.slots.take (pg.getSize / 2) := ⟨_, rfl⟩
  obtain ⟨S2, hS2⟩ : ∃ S, S = pg.slots.drop (pg.getSize / 2) := ⟨_, rfl⟩
  have hS : pg.slots = S1 ++ S2 := by rw [hS1, hS2, List.take_append_drop]
  have hl1 : S1.length = (s.btreeOrder + 1) / 2 := by
    rw [hS1, List.length_take, ← IxPage.getSize, hlen]
    omega
  have hl2 : S2.length = s.btreeOrder + 1 - (s.btreeOrder + 1) / 2 := by
    rw [hS2, List.length_drop, ← IxPage.getSize, hlen]
  obtain ⟨hL', hcat'⟩ := splitLeafState_leaves g.leaves g.alloc hpg hy hypg hyA hyn hS
  rw [← hS1, ← hS2] at hsplit
  obtain ⟨n, hn⟩ : ∃ n, n = s.nextPageNo := ⟨_, rfl⟩
  obtain ⟨s1, hs1⟩ : ∃ s1, s1 = splitLeafState s x y n pg ypg S1 S2 := ⟨_, rfl⟩
  rw [← hn, ← hs1] at hsplit hL' hcat'
  have hyx : y ≠ x := fun h => hyA (by simp [h])
  have hlt : ∀ p ∈ (A ++ x :: B) ++ ls.flatten, p < n := fun p hp => hn ▸ (g.alloc.range p hp).2
  have hxn : x ≠ n := by have := hlt x (by simp); omega
  obtain ⟨hpx, hpn, hpy, hpo⟩ := splitLeafState_pages hs1 hyx (by omega) hxn
  have hnd := List.nodup_append.1 g.alloc.nodup
  have hyls : y ∉ ls.flatten := by
    intro h
    cases B with
    | nil =>
        have := (g.alloc.range y (List.mem_append_right _ h)).1
        rw [hy] at this
        simp [ixLeafHeaderPage] at this
    | cons b B => exact hnd.2.2 y (by simp [hy]) y h rfl
  have hxls : x ∉ ls.flatten := fun h => hnd.2.2 x (by simp) x h rfl
  have hpar : ∀ p, p ≠ n → parentAt s1 p = parentAt s p := by
    intro p hp
    by_cases h1 : p = x
    · rw [h1, parentAt_eq hpx, parentAt_eq hpg]
    by_cases h2 : p = y
    · rw [h2, parentAt_eq hpy, parentAt_eq hypg]
    · exact parentAt_of_pages (hpo p h1 h2 hp)
  have hslots : ∀ p ∈ A ++ B, slotsAt s1 p = slotsAt s p := by
    intro p hp
    have hlt' := hlt p (by simp at hp ⊢; tauto)
    have hpx' : p ≠ x := by
      rintro rfl
      have hnd' := hnd.1
      simp only [List.nodup_append, List.nodup_cons, List.mem_append, List.mem_cons] at hnd' hp
      grind
    by_cases h2 : p = y
    · rw [h2, slotsAt_eq hpy, slotsAt_eq hypg]
    · rw [slotsAt, slotsAt, hpo p hpx' h2 (by omega)]
  have hsome : ∀ p, (s.pages p).isSome → (s1.pages p).isSome := by
    intro p hp
    rw [hs1]
    simp only [splitLeafState]
    split_ifs
    · rfl
    · rfl
    · rfl
    · exact hp
  refine ⟨s1, n, _, hsplit, hpn, by rw [hs1]; rfl, by rw [hs1]; rfl, by rw [hs1]; rfl, by rw [hs1]; rfl, hL', hcat',
    by rw [slotsAt_eq hpx]; exact hl1, by rw [slotsAt_eq hpn]; exact hl2, hslots, ?_, ?_, ?_⟩
  · rw [firstKey_eq hpx, firstKey_eq hpg]
    simp only [IxPage.getKey, hS]
    cases S1 with
    | nil => simp only [List.length_nil] at hl1; omega
    | cons e S => rfl
  · refine Up.frame (by simpa using g.up) (by rw [hs1]; rfl) (by rw [hs1]; rfl) (fun p hp => ?_)
      fun p hp => hpar p ?_
    · refine hpo p (fun h => hxls (h ▸ hp)) (fun h => hyls (h ▸ hp)) ?_
      have := hlt p (by simp [hp])
      omega
    · have := hlt p (List.mem_append_left _ (by simpa [childRid] using hp))
      omega
  · have ha0 : Alloc s ((A ++ [x]) ++ (B ++ ls.flatten)) := by simpa using g.alloc
    have h2 := (g.alloc.range x (by simp)).1
    have h3 := hlt x (by simp)
    have : Alloc s1 ((A ++ [x]) ++ n :: (B ++ ls.flatten)) := ha0.fresh hn (by omega) (by rw [hs1, hn]; rfl)
      (by rw [hs1]; exact congrArg (· + 1) g.alloc.counted) hsome (by simp [hpn])
    simpa using this

section

variable {s s1 s' : IxIndexHandle K} {A B : List Int} {x n : Int} {ls ls' : List (List Int)}
  (hs : SplitLeaf s s1 A B x n ls) (hf : Frame s1 s' ls.flatten (A ++ x :: n :: B))

include hs hf

/-- Entering the new leaf above leaves the leaves as the split left them. -/
theorem SplitLeaf.core : ∀ p ∈ ixLeafHeaderPage :: (A ++ x :: n :: B), coreAt s' p = coreAt s1 p := by
  intro p hp
  rcases List.mem_cons.1 hp with rfl | hp
  · refine hf.core _ ?_ fun h => ?_
    · have := hs.alloc.range x (by simp)
      simp only [ixLeafHeaderPage]
      omega
    · have := (hs.alloc.range _ (List.mem_append_right _ h)).1
      simp [ixLeafHeaderPage] at this
  · exact hf.core p (hs.alloc.range p (List.mem_append_left _ hp)).2 fun hp' =>
      (List.nodup_append.1 hs.alloc.nodup).2.2 p hp p hp' rfl

theorem SplitLeaf.slots : ∀ p ∈ A ++ x :: n :: B, slotsAt s' p = slotsAt s1 p := fun p hp =>
  slotsAt_of_core (hs.core hf p (by simp at hp ⊢; tauto))

theorem SplitLeaf.view_eq : view s' (A ++ x :: n :: B) = view s A ++ (firstKey s x, childRid x) ::
    (firstKey s1 n, childRid n) :: view s B := by
  rw [view_congr (hs.slots hf), view_append, view_cons, view_cons, hs.key,
    view_congr (s := s) (l := A) fun p hp => hs.others p (by simp [hp]),
    view_congr (s := s) (l := B) fun p hp => hs.others p (by simp [hp])]

/-- The two halves are large enough, and a leaf beside them is not the root. -/
theorem SplitLeaf.sized (g : Grown s (A ++ x :: B) x ls) :
    ∀ p ∈ A ++ x :: n :: B, Sized s' (if ls' = [] then 0 else s'.getMinSize) p := by
  intro p hp
  have ho := g.order
  have hord : s'.btreeOrder = s.btreeOrder := hf.order.trans hs.order
  have hmin : (if ls' = [] then 0 else s'.getMinSize) ≤ (s.btreeOrder + 1) / 2 := by
    simp only [getMinSize, getMaxSize, hord]
    split <;> omega
  have hmaxo : s'.getMaxSize = s.btreeOrder + 1 := by simp [getMaxSize, hord]
  simp only [Sized, hs.slots hf p hp, hmaxo]
  by_cases h1 : p = x
  · rw [h1, hs.left]
    omega
  by_cases h2 : p = n
  · rw [h2, hs.right]
    omega
  · have hpl : p ∈ A ++ B := by
      simp only [List.mem_append, List.mem_cons, h1, h2, false_or] at hp ⊢
      exact hp
    have hls : ls ≠ [] := by
      rintro rfl
      obtain ⟨k, hk, -⟩ := g.up
      have := congrArg List.length hk
      simp only [view, List.length_map, List.length_append, List.length_cons, List.length_nil]
        at this
      have hA : A = [] := List.eq_nil_of_length_eq_zero (by omega)
      have hB : B = [] := List.eq_nil_of_length_eq_zero (by omega)
      simp [hA, hB] at hpl
    have hsz := g.sized p (by simp at hpl ⊢; tauto) h1
    rw [if_neg hls] at hsz
    simp only [Sized, getMinSize, getMaxSize] at hsz
    rw [hs.others p hpl]
    omega

end

/-- Splitting the full leaf and entering the new one gives a tree again. -/
theorem Grown.split {s : IxIndexHandle K} {l : List Int} {x : Int} {ls : List (List Int)}
    (g : Grown s l x ls) (hmax : (slotsAt s x).length = s.getMaxSize) :
    ∃ s1 n npg s' l' ls', s.split x = some (s1, n) ∧ s1.pages n = some npg ∧
      insertIntoParent s1.rounds s1 x (npg.getKey 0) n = some s' ∧ Tree s' l' ls' ∧
      cat s' l' = cat s l := by
  obtain ⟨A, B, rfl⟩ := List.append_of_mem g.mem
  obtain ⟨s1, n, npg, hsplit, hpn, hs⟩ := g.halves hmax
  have hrounds : ls.length < s1.rounds := by
    refine Nat.lt_of_lt_of_le (g.up.length_lt (by simp) g.alloc) (Int.toNat_le_toNat ?_)
    rw [hs.pages]
    omega
  obtain ⟨s', ls', hrun, hup', ha', hf', -⟩ := insertIntoParent_spec ls s1.rounds s1 x n (view s A)
    (view s B) (firstKey s x) (firstKey s1 n) hs.key.symm hs.up (by simpa [childRid] using hs.alloc)
    (by rw [hs.order]; exact g.order) hrounds
  have hf : Frame s1 s' ls.flatten (A ++ x :: n :: B) := by simpa [childRid] using hf'
  have hfix : fixed s' = fixed s1 := hf.fixed
  refine ⟨s1, n, npg, s', A ++ x :: n :: B, ls', hsplit, hpn, ?_, ⟨?_, ?_, hs.sized hf g, ?_, ?_, ?_⟩, ?_⟩
  · rw [← hrun, firstKey_eq hpn]
  · rw [hf.order, hs.order]
    exact g.order
  · exact hs.leaves.frame (hs.core hf) (congrArg (fun t => t.2.1) hfix) (congrArg (fun t => t.2.2.1) hfix)
  · rw [hs.view_eq hf]
    exact hup'
  · simpa [childRid] using ha'
  · have h1 : s'.pinnedLeafPage = s1.pinnedLeafPage := congrArg (fun t => t.2.2.2.2.2) hfix
    have h2 : s'.pinnedLeafNo = s1.pinnedLeafNo := congrArg (fun t => t.2.2.2.2.1) hfix
    rw [h1, h2, hs.pinned, hs.pinnedNo]
    exact g.pinned
  · rw [cat_congr (hs.slots hf), hs.cat_eq]

/-! ## `insert_entry` -/

/-- `E'` is `E` with the entry `(k, v)` put at the place of its key. -/
def Placed (E E' : List (K × Rid)) (k : K) (v : Rid) : Prop :=
  ∃ E1 E2, E = E1 ++ E2 ∧ E' = E1 ++ (k, v) :: E2 ∧ (∀ e ∈ E1, e.1 < k) ∧ ∀ e ∈ E2, k < e.1

omit [Inhabited K] in
theorem Placed.increasing {E E' : List (K × Rid)} {k : K} {v : Rid} (h : Placed E E' k v)
    (hE : Increasing E) : Increasing E' := by
  obtain ⟨E1, E2, rfl, rfl, h1, h2⟩ := h
  obtain ⟨ha, hb, hab⟩ := increasing_append.1 hE
  refine increasing_append.2 ⟨ha, increasing_cons.2 ⟨h2, hb⟩, fun e he d hd => ?_⟩
  rcases List.mem_cons.1 hd with rfl | hd
  · exact h1 e he
  · exact hab e he d hd

omit [Inhabited K] in
/-- An entry placed in the leaf of its key is placed in the level. -/
theorem LeafFor.placed {s : IxIndexHandle K} {l : List Int} {k : K} {x : Int} {A B : List Int}
    {pg : IxPage K} (h : LeafFor s l k x A B pg) {S1 S2 : List (K × Rid)} {v : Rid}
    (hS : pg.slots = S1 ++ S2) (h1 : ∀ e ∈ S1, e.1 < k) (h2 : ∀ e ∈ S2, k < e.1) :
    Placed (cat s l) (cat s A ++ (S1 ++ (k, v) :: S2) ++ cat s B) k v := by
  refine ⟨cat s A ++ S1, S2 ++ cat s B, ?_, by simp, fun e he => ?_, fun e he => ?_⟩
  · rw [h.level]
    simp [slotsAt_eq h.page, hS]
  · exact (List.mem_append.1 he).elim (h.before e) (h1 e)
  · exact (List.mem_append.1 he).elim (h2 e) (h.after e)

/-- The leaf takes the entry, and the keys above follow if it became the first one. -/
theorem Tree.grow {s : IxIndexHandle K} {l : List Int} {ls : List (List Int)} (h : Tree s l ls)
    {k : K} {v : Rid} {x : Int} {A B : List Int} {pg : IxPage K} (hx : LeafFor s l k x A B pg)
    {S1 S2 : List (K × Rid)} (hS : pg.slots = S1 ++ S2) (h1 : ∀ e ∈ S1, e.1 < k)
    (h2 : ∀ e ∈ S2, k < e.1) :
    ∃ s', (if (IxPage.getKey { pg with slots := S1 ++ (k, v) :: S2 } 0) = k then
        maintainParent (s.setNode x { pg with slots := S1 ++ (k, v) :: S2 }).rounds
          (s.setNode x { pg with slots := S1 ++ (k, v) :: S2 }) x
        else some (s.setNode x { pg with slots := S1 ++ (k, v) :: S2 })) = some s' ∧
      Grown s' l x ls ∧ cat s' l = cat s A ++ (S1 ++ (k, v) :: S2) ++ cat s B ∧
      s'.pages x = some { pg with slots := S1 ++ (k, v) :: S2 } := by
  have hplaced := hx.placed (v := v) hS h1 h2
  have hinc := hplaced.increasing h.leaves.sorted
  have hmem : x ∈ l := by simp [hx.level]
  have hszx := h.sized x hmem
  rw [Sized, slotsAt_eq hx.page, hS, List.length_append] at hszx
  have hgrown : ∀ s', fixed s' = fixed s →
      (∀ p ∈ A ++ B, s'.pages p = s.pages p) →
      s'.pages x = some { pg with slots := S1 ++ (k, v) :: S2 } → Leaves s' l →
      Alloc s' (l ++ ls.flatten) → Up s' (view s' l) ls → Grown s' l x ls := by
    intro s' hfix hother hpx hL ha hup
    have hord : s'.btreeOrder = s.btreeOrder := congrArg Prod.fst hfix
    have hmax : s'.getMaxSize = s.getMaxSize := by simp [getMaxSize, hord]
    have hmin : s'.getMinSize = s.getMinSize := by simp [getMinSize, hmax]
    have hslx : slotsAt s' x = S1 ++ (k, v) :: S2 := slotsAt_eq hpx
    refine ⟨hord ▸ h.order, hL, hmem, fun p hp hpx' => ?_, ?_, ?_, hup, ha, ?_⟩
    · rw [hmin]
      refine (h.sized p hp).congr (slotsAt_of_pages (hother p ?_)) hmax
      rw [hx.level] at hp
      simp only [List.mem_append, List.mem_cons] at hp ⊢
      tauto
    · simp only [hslx, hmin, List.length_append, List.length_cons]
      omega
    · simp only [hslx, hmax, List.length_append, List.length_cons]
      omega
    · have e1 : s'.pinnedLeafPage = s.pinnedLeafPage := congrArg (fun t => t.2.2.2.2.2) hfix
      have e2 : s'.pinnedLeafNo = s.pinnedLeafNo := congrArg (fun t => t.2.2.2.2.1) hfix
      rw [e1, e2]
      exact h.pinned
  by_cases hk : (IxPage.getKey { pg with slots := S1 ++ (k, v) :: S2 } 0) = k
  · rw [if_pos hk]
    obtain ⟨s', hrun, hcat, hL, ha, hup, hother, hpx, hfix⟩ :=
      h.rewriteLeaf_maintain hx.level hx.page hinc
    exact ⟨s', hrun, hgrown s' hfix hother hpx hL ha hup, hcat, hpx⟩
  · rw [if_neg hk]
    obtain ⟨s', hs', hcat, hL, ha, hup, hother⟩ := h.rewriteLeaf hx.level hx.page hinc
    have hpx : s'.pages x = some { pg with slots := S1 ++ (k, v) :: S2 } := by simp [hs']
    refine ⟨s', by rw [hs'], hgrown s' (by rw [hs']; rfl) hother hpx hL ha ?_, hcat, hpx⟩
    have hkey : firstKey s' x = firstKey s x := by
      rw [firstKey_eq hpx, firstKey_eq hx.page]
      cases S1 with
      | nil => exact absurd rfl hk
      | cons e S => simp [IxPage.getKey, hS]
    rw [hx.level, view_append, view_cons, hkey,
      view_congr (s := s) (l := A) fun p hp => slotsAt_of_pages (hother p (by simp [hp])),
      view_congr (s := s) (l := B) fun p hp => slotsAt_of_pages (hother p (by simp [hp]))]
    exact hup

theorem insertEntry_spec {s : IxIndexHandle K} {l : List Int} {ls : List (List Int)}
    (h : Tree s l ls) (k : K) (v : Rid) : ∃ s' p l' ls', s.insertEntry k v = some (s', p) ∧
      Tree s' l' ls' ∧
      ((∃ r, (cat s l).lookup k = some r ∧ cat s' l' = cat s l) ∨
        Placed (cat s l) (cat s' l') k v) := by
  obtain ⟨x, owned, A, B, pg, hx, hfind⟩ := findInsertLeaf_spec h k
  have hinc : Increasing pg.slots := by
    rw [← slotsAt_eq hx.page]
    exact h.leaves.sorted.slotsAt (by simp [hx.level])
  simp only [insertEntry, hfind, Option.bind_eq_bind, Option.bind_some, hx.page]
  rcases insert_cases pg k v hinc with ⟨S1, S2, hS, h1, h2, hins⟩ | ⟨S1, r, S2, hS, h1, h2, hins⟩
  · have hne : ¬ (IxPage.getSize { pg with slots := S1 ++ (k, v) :: S2 }) = pg.getSize := by
      simp only [IxPage.getSize, hS, List.length_append, List.length_cons]
      omega
    obtain ⟨s1, hrun, g, hcat, hpx⟩ := h.grow (v := v) hx hS h1 h2
    rw [hins, if_neg hne, hrun, Option.bind_some]
    have hsl : slotsAt s1 x = S1 ++ (k, v) :: S2 := slotsAt_eq hpx
    have hplaced : Placed (cat s l) (cat s1 l) k v := by
      rw [hcat]
      exact hx.placed hS h1 h2
    by_cases hfull : (IxPage.getSize { pg with slots := S1 ++ (k, v) :: S2 }) ≥ s1.getMaxSize
    · rw [if_pos hfull]
      have hmax : (slotsAt s1 x).length = s1.getMaxSize := by
        have := g.most
        rw [hsl] at this ⊢
        simp only [IxPage.getSize] at hfull
        omega
      obtain ⟨s2, hs2, hpages2, g2, hmax2⟩ : ∃ s2, s2 = (if owned = true then
          { s1 with pinnedLeafNo := ixNoPage, pinnedLeafPage := none } else s1) ∧
          (∀ p, s2.pages p = s1.pages p) ∧ Grown s2 l x ls ∧
          (slotsAt s2 x).length = s2.getMaxSize := by
        cases owned with
        | true => exact ⟨_, rfl, fun p => rfl, g.setPins _ _ (by simp), hmax⟩
        | false => exact ⟨_, rfl, fun p => rfl, g, hmax⟩
      obtain ⟨s3, n, npg, s', l', ls', hsplit, hn, hins, ht, hcat'⟩ := g2.split hmax2
      rw [← hs2, hsplit, Option.bind_some]
      simp only [hn, Option.bind_some, hins]
      refine ⟨_, x, l', ls', rfl, ht.setPins _ _ _ ht.pinned, Or.inr ?_⟩
      rw [cat_congr fun p _ => slotsAt_of_pages (hpages2 p)] at hcat'
      change Placed (cat s l) (cat s' l') k v
      rw [hcat']
      exact hplaced
    · rw [if_neg hfull]
      have ht : Tree s1 l ls := g.tree (by
        rw [hsl]
        simpa [IxPage.getSize] using hfull)
      cases owned with
      | true => exact ⟨_, x, l, ls, rfl, ht.setPins _ _ _ ht.pinned, Or.inr hplaced⟩
      | false =>
          simp only [Bool.false_eq_true, if_false, releasePinnedLeaf]
          split
          · exact ⟨_, x, l, ls, rfl, ht.setPins x x (some x) (by simp), Or.inr hplaced⟩
          · exact ⟨_, x, l, ls, rfl, ht.setPins x x (some x) (by simp), Or.inr hplaced⟩
  · rw [hins, if_pos rfl, setNode_self hx.page]
    refine ⟨s, x, l, ls, rfl, h, Or.inl ⟨r, ?_, rfl⟩⟩
    rw [hx.lookup, hS, List.lookup_append, List.lookup_eq_none_iff.2 fun e he =>
      bne_iff_ne.2 (ne_of_gt (h1 e he))]
    simp

end

end Rmdb.Index
