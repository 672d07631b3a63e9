import Rmdb.Index.Insert

/-!
# Deleting an entry

`delete_entry` keeps the tree invariant, takes the entry of the key out and reports whether
it was there (`deleteEntry_spec`).  A leaf that has become too small is balanced with a
neighbour; merging two leaves takes one out of the ring and continues in the level above.
-/

namespace Rmdb.Index

open IxIndexHandle

section
variable {K : Type} [LinearOrder K] [Inhabited K]

/-- A tree whose leaf `x` may lack one entry. -/
structure Shrunk (s : IxIndexHandle K) (l : List Int) (x : Int) (ls : List (List Int)) : Prop where
  order : 2 < s.btreeOrder
  leaves : Leaves s l
  mem : x ∈ l
  sized : ∀ p ∈ l, p ≠ x → Sized s (if ls = [] then 0 else s.getMinSize) p
  lt : (slotsAt s x).length < s.getMaxSize
  short : ls ≠ [] → s.getMinSize ≤ (slotsAt s x).length + 1
  up : Up s (view s l) ls
  alloc : Alloc s (l ++ ls.flatten)
  pinned : ∀ p, s.pinnedLeafPage = some p → p = s.pinnedLeafNo

theorem Shrunk.tree {s : IxIndexHandle K} {l : List Int} {x : Int} {ls : List (List Int)}
    (h : Shrunk s l x ls) (hx : (if ls = [] then 0 else s.getMinSize) ≤ (slotsAt s x).length) :
    Tree s l ls where
  order := h.order
  leaves := h.leaves
  sized := fun p hp => by
    by_cases hpx : p = x
    · rw [hpx]
      exact ⟨hx, h.lt⟩
    · exact h.sized p hp hpx
  up := h.up
  alloc := h.alloc
  pinned := h.pinned

/-! ## Moving an entry between leaves -/

section
variable {s : IxIndexHandle K} {c : Siblings s} {x : Int} {ls : List (List Int)}
  (h : Shrunk s c.level x (c.upper :: ls)) {pga pgb : IxPage K}
  (ha : s.pages c.a = some pga) (hb : s.pages c.b = some pgb) (hla : pga.isLeaf = true)
  (hlb : pgb.isLeaf = true)
include h

theorem Shrunk.apart : c.level.Nodup ∧ (∀ p ∈ c.level, p ∉ (c.upper :: ls).flatten) ∧
    ∀ p ∈ c.level ++ (c.upper :: ls).flatten, p ≠ ixLeafHeaderPage := by
  have hnd := List.nodup_append.1 h.alloc.nodup
  refine ⟨hnd.1, fun p hp hp' => hnd.2.2 p hp p hp' rfl, fun p hp => ?_⟩
  have := (h.alloc.range p hp).1
  simp only [ixLeafHeaderPage]
  omega

theorem Shrunk.beside {p : Int} (hp : p ∈ c.A ++ c.B) :
    p ∈ c.level ∧ p ≠ c.a ∧ p ≠ c.b ∧ p ≠ c.q := by
  obtain ⟨hnd, hlev, -⟩ := h.apart
  have hpl : p ∈ c.level := c.mem_level.2 (Or.inr (Or.inr hp))
  refine ⟨hpl, fun h => ?_, fun h => ?_, fun h => hlev p hpl (by simp [Siblings.upper, h])⟩ <;>
    simp only [Siblings.level, List.nodup_append, List.nodup_cons, List.mem_append,
      List.mem_cons] at hnd hp <;> grind

omit [LinearOrder K] h in
include ha hb in
theorem Siblings.entries_pair :
    cat s c.level = cat s c.A ++ (pga.slots ++ pgb.slots) ++ cat s c.B := by
  simp [Siblings.level, slotsAt_eq ha, slotsAt_eq hb]

variable (pgb) in
include hla in
theorem Shrunk.alloc_pair : Alloc s (kidsOf pga (pga.slots ++ pgb.slots) ++ [c.a, c.b, c.q]) := by
  refine h.alloc.sublist ?_
  have h1 : [c.a, c.b].Sublist c.level :=
    (((List.nil_sublist _).cons_cons _).cons_cons _).trans (List.sublist_append_right _ _)
  have h2 : [c.q].Sublist (c.upper :: ls).flatten := by
    rw [List.singleton_sublist]
    simp [Siblings.upper]
  simpa [kidsOf, hla] using h1.append h2

theorem Shrunk.header_lt : ixLeafHeaderPage < s.nextPageNo := by
  have := h.alloc.range x (by simp [h.mem])
  simp only [ixLeafHeaderPage]
  omega

include ha hb hla hlb in
theorem Shrunk.redistributed {s' : IxIndexHandle K} {SA SB : List (K × Rid)} (hx : c.Of x)
    (R : Redistributed s s' c pga pgb SA SB) :
    Tree s' c.level (c.upper :: ls) ∧ cat s' c.level = cat s c.level := by
  obtain ⟨hnd, hlev, hhdr⟩ := h.apart
  have hkids : ∀ es, kidsOf pga es = [] := fun es => by simp [kidsOf, hla]
  have hframe := R.frame
  rw [hkids] at hframe
  have hother : ∀ p ∈ c.A ++ c.B, s'.pages p = s.pages p := by
    intro p hp
    obtain ⟨hpl, h1, h2, h3⟩ := h.beside hp
    exact hframe.same p (h.alloc.range p (by simp [hpl])).2 (by simp [h1, h2, h3]) (by simp)
  have hhdrp : s'.pages ixLeafHeaderPage = s.pages ixLeafHeaderPage := by
    refine hframe.same _ h.header_lt ?_ (by simp)
    simp only [List.mem_cons, List.not_mem_nil, or_false, not_or]
    exact ⟨(hhdr c.a (by simp [Siblings.level])).symm, (hhdr c.b (by simp [Siblings.level])).symm,
      (hhdr c.q (by simp [Siblings.upper])).symm⟩
  have hlinks : ∀ p ∈ ixLeafHeaderPage :: c.level,
      nextAt s' p = nextAt s p ∧ prevAt s' p = prevAt s p := by
    intro p hp
    rcases List.mem_cons.1 hp with rfl | hp
    · simp [nextAt, prevAt, hhdrp]
    rcases c.mem_level.1 hp with rfl | rfl | hp
    · simp [nextAt, prevAt, R.pageA, ha]
    · simp [nextAt, prevAt, R.pageB, hb]
    · simp [nextAt, prevAt, hother p hp]
  have hA : ∀ p ∈ c.A, slotsAt s' p = slotsAt s p := fun p hp =>
    slotsAt_of_pages (hother p (by simp [hp]))
  have hB : ∀ p ∈ c.B, slotsAt s' p = slotsAt s p := fun p hp =>
    slotsAt_of_pages (hother p (by simp [hp]))
  have hcat : cat s' c.level = cat s c.level := by
    rw [c.entries_pair ha hb, ← R.append]
    simp [Siblings.level, slotsAt_eq R.pageA, slotsAt_eq R.pageB, cat_congr hA, cat_congr hB]
  refine ⟨⟨by rw [hframe.order]; exact h.order, ⟨fun p hp => ?_, ?_, ?_, ?_, ?_, ?_⟩, fun p hp => ?_,
    ?_, h.alloc.frame hframe, ?_⟩, hcat⟩
  · rcases c.mem_level.1 hp with rfl | rfl | hp'
    · exact ⟨_, R.pageA, hla⟩
    · exact ⟨_, R.pageB, hlb⟩
    · rw [hother p hp']
      exact h.leaves.leaf p hp
  · rw [hcat]
    exact h.leaves.sorted
  · rw [hhdrp]
    exact h.leaves.header
  · refine h.leaves.ring.congr (fun p hp => (hlinks p hp).1) fun p hp => (hlinks p ?_).2
    simp only [List.mem_append, List.mem_cons, List.not_mem_nil, or_false] at hp ⊢
    tauto
  · rw [show s'.firstLeaf = s.firstLeaf from congrArg (fun t => t.2.1) hframe.fixed]
    exact h.leaves.first
  · rw [show s'.lastLeaf = s.lastLeaf from congrArg (fun t => t.2.2.1) hframe.fixed]
    exact h.leaves.last
  · rw [if_neg (by simp), hframe.minSize]
    rcases c.mem_level.1 hp with rfl | rfl | hp'
    · simpa [Sized, slotsAt_eq R.pageA, hframe.maxSize] using R.sizedA
    · simpa [Sized, slotsAt_eq R.pageB, hframe.maxSize] using R.sizedB
    · obtain ⟨-, h1, h2, -⟩ := h.beside hp'
      have hpx : p ≠ x := fun hpx => hx.side.elim (fun hh => h1 (hpx.trans hh.1)) fun hh =>
        h2 (hpx.trans hh)
      have := h.sized p hp hpx
      rw [if_neg (by simp)] at this
      exact this.congr (slotsAt_of_pages (hother p hp')) hframe.maxSize
  · have := R.up (P := []) ha hb h.up (by simpa using h.alloc) (by simp [hkids])
    simpa [Siblings.level, view_congr hA, view_congr hB] using this
  · rw [show s'.pinnedLeafPage = s.pinnedLeafPage from congrArg (fun t => t.2.2.2.2.2) hframe.fixed,
      show s'.pinnedLeafNo = s.pinnedLeafNo from congrArg (fun t => t.2.2.2.2.1) hframe.fixed]
    exact h.pinned

end

/-! ## Merging leaves -/

/-- The state after leaf `b` was appended to `a`, with `y` the page after `b`; `last` is the
new last leaf. -/
def mergeLeafState (s : IxIndexHandle K) (c : Siblings s) (pga pgb ypg : IxPage K) (y last : Int) :
    IxIndexHandle K :=
  { s with
    lastLeaf := last
    pages := fun p =>
      if p = c.q then some { c.pgq with slots := c.U ++ (firstKey s c.a, childRid c.a) :: c.V }
      else if p = y then some { ypg with prevLeaf := c.a }
      else if p = c.a then some { pga with slots := pga.slots ++ pgb.slots, nextLeaf := y }
      else s.pages p }

omit [LinearOrder K] in
theorem mergeLeafState_pages {s s' : IxIndexHandle K} {c : Siblings s} {pga pgb ypg : IxPage K}
    {y last : Int} (hs' : s' = mergeLeafState s c pga pgb ypg y last) (hya : y ≠ c.a)
    (hyq : y ≠ c.q) (haq : c.a ≠ c.q) :
    s'.pages c.a = some { pga with slots := pga.slots ++ pgb.slots, nextLeaf := y } ∧
    s'.pages y = some { ypg with prevLeaf := c.a } ∧
    s'.pages c.q = some { c.pgq with slots := c.U ++ (firstKey s c.a, childRid c.a) :: c.V } ∧
    ∀ p, p ≠ c.a → p ≠ y → p ≠ c.q → s'.pages p = s.pages p := by
  refine ⟨?_, ?_, ?_, fun p h1 h2 h3 => ?_⟩
  · simp [hs', mergeLeafState, haq, hya.symm]
  · simp [hs', mergeLeafState, hyq]
  · simp [hs', mergeLeafState]
  · simp [hs', mergeLeafState, h1, h2, h3]

section
variable {s : IxIndexHandle K} {c : Siblings s} {x : Int} {ls : List (List Int)}
  (h : Shrunk s c.level x (c.upper :: ls)) {pga pgb : IxPage K}
  (ha : s.pages c.a = some pga) (hb : s.pages c.b = some pgb) (hla : pga.isLeaf = true)
  (hlb : pgb.isLeaf = true)
include h ha hb hla hlb

theorem coalesce_leaf_eq (hx : c.Of x) : ∃ y ypg,
    y = (c.B ++ [ixLeafHeaderPage]).head (by simp) ∧ s.pages y = some ypg ∧
    y ≠ c.a ∧ y ∉ c.A ∧ y ∉ (c.upper :: ls).flatten ∧
    s.coalesce (c.other x) x c.q (c.idx x) = some (mergeLeafState s c pga pgb ypg y
      (if c.b = s.lastLeaf then c.a else s.lastLeaf)) := by
  have hal := h.alloc_pair pgb hla
  obtain ⟨hab, haq, hbq, -⟩ := c.apart hal
  have hL : Leaves s ((c.A ++ [c.a]) ++ c.b :: c.B) := by
    simpa [Siblings.level] using h.leaves
  have hAl : Alloc s (((c.A ++ [c.a]) ++ c.b :: c.B) ++ (c.upper :: ls).flatten) := by
    simpa [Siblings.level] using h.alloc
  obtain ⟨y, ypg, hnext, hy, hypg, hy1, hylt, hyA⟩ := hL.next hAl hb
  simp only [List.append_assoc, List.mem_append, List.mem_cons, List.not_mem_nil, or_false,
    not_or] at hyA
  obtain ⟨hyA, hya, -⟩ := hyA
  have hyup : y ∉ (c.upper :: ls).flatten := by
    intro hmem
    obtain ⟨-, hlev, hhdr⟩ := h.apart
    cases hB : c.B with
    | nil =>
        have : y = ixLeafHeaderPage := by simpa [hB] using hy
        exact hhdr y (List.mem_append_right _ hmem) this
    | cons b B =>
        have : y = b := by simpa [hB] using hy
        exact hlev y (by simp [Siblings.level, hB, this]) hmem
  refine ⟨y, ypg, hy, hypg, hya, hyA, hyup, ?_⟩
  have hyq : y ≠ c.q := fun h => hyup (by simp [Siblings.upper, h])
  rw [coalesce_sides c hx hab]
  have hne : ¬ c.U.length + 1 = 0 := by omega
  have hins : pga.insertPairs pga.getSize pgb.slots =
      { pga with slots := pga.slots ++ pgb.slots } := by
    simp [IxPage.insertPairs, IxPage.getSize]
  obtain ⟨s1, hs1⟩ : ∃ s1, s1 = s.setNode c.a { pga with slots := pga.slots ++ pgb.slots } :=
    ⟨_, rfl⟩
  have hp1 : s1.pages c.a = some { pga with slots := pga.slots ++ pgb.slots } := by simp [hs1]
  obtain ⟨s2, hs2⟩ : ∃ s2, s2 = s1.setNode c.a
    { pga with slots := pga.slots ++ pgb.slots, nextLeaf := y } := ⟨_, rfl⟩
  have hfetch : s2.fetchNode y = some ypg := by
    have hc := h.alloc.counted
    rw [fetchNode_eq (by omega) (by
      simp only [hs2, hs1, setNode_numPages]
      omega)]
    simp [hs2, hs1, hya, hypg]
  simp only [coalesce, if_neg hne, ha, hb, Option.bind_eq_bind, Option.bind_some, hins, ← hs1]
  rw [if_neg (by simp [hla]), Option.bind_some, if_pos hlb, hp1, Option.bind_some]
  simp only [IxPage.setNextLeaf, hnext, ← hs2, hfetch, Option.bind_some]
  have hlast : (s2.setNode y (ypg.setPrevLeaf c.a)).lastLeaf = s.lastLeaf := by rw [hs2, hs1]; rfl
  have hq : (s2.setNode y (ypg.setPrevLeaf c.a)).pages c.q = some c.pgq := by
    simp [hs2, hs1, hyq.symm, haq.symm, c.page]
  rw [hlast]
  split
  · simp only [hq, Option.bind_some, c.erase]
    simp only [hs2, hs1, mergeLeafState, setNode, IxPage.setPrevLeaf]
    congr 2
    funext p
    split_ifs <;> rfl
  · simp only [hq, Option.bind_some, c.erase]
    simp only [hs2, hs1, mergeLeafState, setNode, IxPage.setPrevLeaf]
    congr 2
    funext p
    split_ifs <;> rfl

omit hlb in
/-- Without `b` the leaves hold the same entries and form the ring. -/
theorem mergeLeafState_leaves {s' : IxIndexHandle K} {y : Int} {ypg : IxPage K}
    (hs' : s' = mergeLeafState s c pga pgb ypg y (if c.b = s.lastLeaf then c.a else s.lastLeaf))
    (hy : y = (c.B ++ [ixLeafHeaderPage]).head (by simp)) (hypg : s.pages y = some ypg)
    (hya : y ≠ c.a) (hyA : y ∉ c.A) (hyup : y ∉ (c.upper :: ls).flatten) :
    Leaves s' (c.A ++ c.a :: c.B) ∧ cat s' (c.A ++ c.a :: c.B) = cat s c.level := by
  obtain ⟨hnd, hlev, hhdr⟩ := h.apart
  have hal := h.alloc_pair pgb hla
  obtain ⟨hab, haq, hbq, -⟩ := c.apart hal
  have hyq : y ≠ c.q := fun h => hyup (by simp [Siblings.upper, h])
  obtain ⟨hpa, hpy, hpq, hpo⟩ := mergeLeafState_pages hs' hya hyq haq
  have hnext : ∀ p, p ≠ c.a → p ≠ c.q → nextAt s' p = nextAt s p := by
    intro p h1 h3
    by_cases h2 : p = y
    · rw [h2, nextAt_eq hpy, nextAt_eq hypg]
    · simp [nextAt, hpo p h1 h2 h3]
  have hprev : ∀ p, p ≠ y → p ≠ c.q → prevAt s' p = prevAt s p := by
    intro p h2 h3
    by_cases h1 : p = c.a
    · rw [h1, prevAt_eq hpa, prevAt_eq ha]
    · simp [prevAt, hpo p h1 h2 h3]
  have hslots : ∀ p ∈ c.A ++ c.B, slotsAt s' p = slotsAt s p := by
    intro p hp
    obtain ⟨-, h1, -, h3⟩ := h.beside hp
    by_cases h2 : p = y
    · rw [h2, slotsAt_eq hpy, slotsAt_eq hypg]
    · simp [slotsAt, hpo p h1 h2 h3]
  have hcat : cat s' (c.A ++ c.a :: c.B) = cat s c.level := by
    rw [c.entries_pair ha hb]
    simp [cat_congr (s := s) (l := c.A) fun p hp => hslots p (by simp [hp]),
      cat_congr (s := s) (l := c.B) fun p hp => hslots p (by simp [hp]), slotsAt_eq hpa]
  have hhq : ixLeafHeaderPage ≠ c.a ∧ ixLeafHeaderPage ≠ c.q :=
    ⟨(hhdr c.a (by simp [Siblings.level])).symm, (hhdr c.q (by simp [Siblings.upper])).symm⟩
  have hring := h.leaves.ring
  rw [Siblings.level] at hring
  obtain ⟨hr1, hr2⟩ := links_append.1 hring
  refine ⟨⟨fun p hp => ?_, ?_, ?_, ?_, ?_, ?_⟩, hcat⟩
  · by_cases h1 : p = c.a
    · exact ⟨{ pga with slots := pga.slots ++ pgb.slots, nextLeaf := y }, h1 ▸ hpa, hla⟩
    · have hp' : p ∈ c.A ++ c.B := by simpa [h1] using hp
      obtain ⟨hpl, -, -, h3⟩ := h.beside hp'
      obtain ⟨pg', hpg', hl'⟩ := h.leaves.leaf p hpl
      by_cases h2 : p = y
      · obtain rfl : ypg = pg' := by simpa [h2, hypg] using hpg'
        exact ⟨{ ypg with prevLeaf := c.a }, h2 ▸ hpy, hl'⟩
      · exact ⟨pg', (hpo p h1 h2 h3).trans hpg', hl'⟩
  · rw [hcat]
    exact h.leaves.sorted
  · by_cases h3 : ixLeafHeaderPage = y
    · rw [h3, hpy]
      rfl
    · rw [hpo _ hhq.1 h3 hhq.2]
      exact h.leaves.header
  · refine links_append.2 ⟨hr1.congr (fun p hp => ?_) fun p hp => ?_, ?_⟩
    · rcases List.mem_cons.1 hp with rfl | hp
      · exact hnext _ hhq.1 hhq.2
      · obtain ⟨-, h1, -, h3⟩ := h.beside (p := p) (by simp [hp])
        exact hnext p h1 h3
    · rcases List.mem_append.1 hp with hp | hp
      · obtain ⟨-, -, -, h3⟩ := h.beside (p := p) (by simp [hp])
        exact hprev p (fun h => hyA (h ▸ hp)) h3
      · obtain rfl : p = c.a := by simpa using hp
        exact hprev _ hya.symm haq
    · -- from `a` the ring now goes on where it went on from `b`
      have hr3 := hr2.2
      cases hB : c.B with
      | nil =>
          have hy' : y = ixLeafHeaderPage := by simpa [hB] using hy
          exact ⟨by rw [nextAt_eq hpa, hy'], by rw [← hy', prevAt_eq hpy]⟩
      | cons b B =>
          obtain rfl : y = b := by simpa [hB] using hy
          rw [hB] at hr3
          refine ⟨⟨by rw [nextAt_eq hpa], by rw [prevAt_eq hpy]⟩, hr3.2.congr (fun p hp => ?_)
            fun p hp => ?_⟩
          · obtain ⟨-, h1, -, h3⟩ := h.beside (p := p) (by simp [hB] at hp ⊢; tauto)
            exact hnext p h1 h3
          · rcases List.mem_append.1 hp with hp | hp
            · obtain ⟨-, -, -, h3⟩ := h.beside (p := p) (by simp [hB, hp])
              refine hprev p (fun h => ?_) h3
              simp only [Siblings.level, hB, List.nodup_append, List.nodup_cons,
                List.mem_cons] at hnd
              grind
            · obtain rfl : p = ixLeafHeaderPage := by simpa using hp
              exact hprev _ (hhdr y (by simp [Siblings.level, hB])).symm hhq.2
  · have hf := h.leaves.first
    rw [hs']
    cases hA : c.A <;> simpa [mergeLeafState, Siblings.level, hA] using hf
  · have hl := h.leaves.last
    rw [hs']
    simp only [mergeLeafState]
    rcases List.eq_nil_or_concat c.B with hB | ⟨B', b, hB⟩
    · have hbl : c.b = s.lastLeaf := by
        rw [Siblings.level, hB] at hl
        simpa using hl
      rw [if_pos hbl, hB]
      simp
    · have h1 : c.level = (c.A ++ c.a :: c.b :: B') ++ [b] := by simp [Siblings.level, hB]
      have h2 : c.A ++ c.a :: c.B = (c.A ++ c.a :: B') ++ [b] := by simp [hB]
      rw [h1, List.getLast?_concat] at hl
      have hbl : b = s.lastLeaf := by simpa using hl
      have hne : c.b ≠ s.lastLeaf := by
        rw [← hbl]
        exact fun hh => (h.beside (p := b) (by simp [hB])).2.2.1 hh.symm
      rw [if_neg hne, h2, List.getLast?_concat, hbl]

omit h ha hb hla hlb [LinearOrder K] in
theorem Short.setLastLeaf {ks : List (K × Rid)} {l : List Int} {ls : List (List Int)}
    (h : Short s ks l x ls) (v : Int) : Short { s with lastLeaf := v } ks l x ls where
  entries := h.entries
  rids := h.rids
  mem := h.mem
  inner := h.inner
  sized := h.sized
  lt := h.lt
  pos := h.pos
  short := h.short
  up := h.up.frame rfl rfl (fun _ _ => rfl) fun _ _ => rfl
  alloc := ⟨h.alloc.nodup, h.alloc.range, h.alloc.isSome, h.alloc.counted⟩
  order := h.order

omit hlb in
/-- Merging two leaves and balancing the level above gives a tree again. -/
theorem Shrunk.merged {s1 s' : IxIndexHandle K} {y : Int} {ypg : IxPage K} (hx : c.Of x)
    (hmin : s.getMinSize ≤ pga.slots.length + pgb.slots.length)
    (hmax : pga.slots.length + pgb.slots.length < s.getMaxSize)
    (hs1 : s1 = mergeLeafState s c pga pgb ypg y (if c.b = s.lastLeaf then c.a else s.lastLeaf))
    (hy : y = (c.B ++ [ixLeafHeaderPage]).head (by simp)) (hypg : s.pages y = some ypg)
    (hya : y ≠ c.a) (hyA : y ∉ c.A) (hyup : y ∉ (c.upper :: ls).flatten)
    (hne : pga.slots ≠ [])
    (hB : Balanced s1 s' (view s (c.A ++ c.a :: c.B)) c.upper ls) :
    ∃ ls', Tree s' (c.A ++ c.a :: c.B) ls' ∧
      cat s' (c.A ++ c.a :: c.B) = cat s c.level := by
  obtain ⟨ls', hup', hsub, hf'⟩ := hB
  rw [pagesOf_view] at hf'
  obtain ⟨hL1, hcat1⟩ := mergeLeafState_leaves h ha hb hla hs1 hy hypg hya hyA hyup
  obtain ⟨hnd, hlev, hhdr⟩ := h.apart
  have hal := h.alloc_pair pgb hla
  obtain ⟨hab, haq, hbq, -⟩ := c.apart hal
  have hyq : y ≠ c.q := fun h => hyup (by simp [Siblings.upper, h])
  obtain ⟨hpa, hpy, hpq, hpo⟩ := mergeLeafState_pages hs1 hya hyq haq
  have hnext : s1.nextPageNo = s.nextPageNo := by rw [hs1]; rfl
  have hlmem : ∀ p ∈ c.A ++ c.a :: c.B, p ∈ c.level := by
    intro p hp
    simp only [Siblings.level, List.mem_append, List.mem_cons] at hp ⊢
    tauto
  have hcore : ∀ p ∈ ixLeafHeaderPage :: (c.A ++ c.a :: c.B), coreAt s' p = coreAt s1 p := by
    intro p hp
    rcases List.mem_cons.1 hp with rfl | hp
    · refine hf'.core _ (by rw [hnext]; exact h.header_lt) fun hp => ?_
      exact hhdr _ (List.mem_append_right _ hp) rfl
    · refine hf'.core p ?_ (hlev p (hlmem p hp))
      rw [hnext]
      exact (h.alloc.range p (by simp [hlmem p hp])).2
  have hslots : ∀ p ∈ c.A ++ c.a :: c.B, slotsAt s' p = slotsAt s1 p := fun p hp =>
    slotsAt_of_core (hcore p (by simp at hp ⊢; tauto))
  have hslots1 : ∀ p ∈ c.A ++ c.B, slotsAt s1 p = slotsAt s p := by
    intro p hp
    obtain ⟨-, h1, -, h3⟩ := h.beside hp
    by_cases h2 : p = y
    · rw [h2, slotsAt_eq hpy, slotsAt_eq hypg]
    · simp [slotsAt, hpo p h1 h2 h3]
  have hkey : firstKey s1 c.a = firstKey s c.a := by
    rw [firstKey_eq hpa, firstKey_eq ha]
    simp only [IxPage.getKey]
    cases hp : pga.slots with
    | nil => exact absurd hp hne
    | cons e S => rfl
  have hfix : fixed s' = fixed s1 := hf'.fixed
  have hord : s'.btreeOrder = s.btreeOrder := by rw [hf'.order, hs1]; rfl
  refine ⟨ls', ⟨by rw [hord]; exact h.order, ?_, fun p hp => ?_, ?_, ?_, ?_⟩, ?_⟩
  · exact hL1.frame hcore (congrArg (fun t => t.2.1) hfix) (congrArg (fun t => t.2.2.1) hfix)
  · have hmaxs : s'.getMaxSize = s.getMaxSize := by simp [getMaxSize, hord]
    have hmins : (if ls' = [] then 0 else s'.getMinSize) ≤ s.getMinSize := by
      simp only [getMinSize, hmaxs]
      split <;> omega
    simp only [Sized, hmaxs, hslots p hp]
    by_cases hpa' : p = c.a
    · have hsla : slotsAt s1 c.a = pga.slots ++ pgb.slots := slotsAt_eq hpa
      rw [hpa', hsla, List.length_append]
      omega
    · have hp' : p ∈ c.A ++ c.B := by simpa [hpa'] using hp
      obtain ⟨hpl, h1, h2, -⟩ := h.beside hp'
      have hpx : p ≠ x := fun hpx => hx.side.elim (fun hh => h1 (hpx.trans hh.1)) fun hh =>
        h2 (hpx.trans hh)
      have hsz := h.sized p hpl hpx
      rw [if_neg (by simp)] at hsz
      rw [hslots1 p hp']
      exact ⟨Nat.le_trans hmins hsz.1, hsz.2⟩
  · have : view s' (c.A ++ c.a :: c.B) = view s (c.A ++ c.a :: c.B) := by
      rw [view_congr hslots]
      simp [hkey, view_congr (s := s) (l := c.A) fun p hp => hslots1 p (by simp [hp]),
        view_congr (s := s) (l := c.B) fun p hp => hslots1 p (by simp [hp])]
    rw [this]
    exact hup'
  · have ha1 : Alloc s1 (c.level ++ (c.upper :: ls).flatten) := by
      refine ⟨h.alloc.nodup, fun p hp => ?_, fun p hp => ?_, ?_⟩
      · rw [hnext]
        exact h.alloc.range p hp
      · rw [hs1]
        simp only [mergeLeafState]
        split_ifs
        · rfl
        · rfl
        · rfl
        · exact h.alloc.isSome p hp
      · rw [hs1]
        exact h.alloc.counted
    refine (ha1.frame hf').sublist (List.Sublist.append ?_ hsub)
    exact ((List.sublist_cons_self _ _).cons_cons _).append_left _
  · rw [show s'.pinnedLeafPage = s1.pinnedLeafPage from congrArg (fun t => t.2.2.2.2.2) hfix,
      show s'.pinnedLeafNo = s1.pinnedLeafNo from congrArg (fun t => t.2.2.2.2.1) hfix, hs1]
    exact h.pinned
  · rw [cat_congr hslots, hcat1]

end

theorem Shrunk.size {s : IxIndexHandle K} {l m : List Int} {x p : Int} {ls : List (List Int)}
    {pg : IxPage K} (h : Shrunk s l x (m :: ls)) (hp : p ∈ l) (hpg : s.pages p = some pg) :
    pg.slots.length < s.getMaxSize ∧ s.getMinSize ≤ pg.slots.length + 1 ∧
      (p ≠ x → s.getMinSize ≤ pg.slots.length) := by
  by_cases hpx : p = x
  · have h1 := h.lt
    have h2 := h.short (by simp)
    rw [← hpx, slotsAt_eq hpg] at h1 h2
    exact ⟨h1, h2, fun h => absurd hpx h⟩
  · have h1 := h.sized p hp hpx
    simp only [Sized, slotsAt_eq hpg, reduceCtorEq, if_false] at h1
    exact ⟨h1.2, by omega, fun _ => h1.1⟩

/-- The level above the merged leaves, ready for the next round. -/
theorem Shrunk.above {s s1 : IxIndexHandle K} {c : Siblings s} {x y last : Int}
    {ls : List (List Int)} {pga pgb ypg : IxPage K} (h : Shrunk s c.level x (c.upper :: ls))
    (ha : s.pages c.a = some pga) (hla : pga.isLeaf = true) (hypg : s.pages y = some ypg)
    (hya : y ≠ c.a) (hyup : y ∉ (c.upper :: ls).flatten)
    (hs1 : s1 = mergeLeafState s c pga pgb ypg y last) :
    Short s1 (view s (c.A ++ c.a :: c.B)) c.upper c.q ls := by
  obtain ⟨-, hlev, -⟩ := h.apart
  obtain ⟨-, haq, -, -⟩ := c.apart (h.alloc_pair pgb hla)
  have hyq : y ≠ c.q := fun h => hyup (by simp [Siblings.upper, h])
  -- the balancing does not look at the last leaf, which a frame keeps
  obtain ⟨s2, hs2⟩ : ∃ s2, s2 = mergeLeafState s c pga pgb ypg y s.lastLeaf := ⟨_, rfl⟩
  obtain ⟨hpa, hpy, hpq, hpo⟩ := mergeLeafState_pages hs2 hya hyq haq
  have hother : ∀ p, p ∉ [c.a, y, c.q] → s2.pages p = s.pages p := by
    intro p hp
    simp only [List.mem_cons, List.not_mem_nil, or_false, not_or] at hp
    exact hpo p hp.1 hp.2.1 hp.2.2
  have F : Frame s s2 [c.a, y, c.q] [] := by
    refine ⟨by rw [hs2]; rfl, by rw [hs2]; exact id, by rw [hs2]; exact Int.le_refl _,
      fun p hp => ?_, fun p _ hp => by simp [coreAt, hother p hp], fun p _ hp _ => hother p hp⟩
    by_cases hp' : p ∈ [c.a, y, c.q]
    · simp only [List.mem_cons, List.not_mem_nil, or_false] at hp'
      rcases hp' with rfl | rfl | rfl
      · simp [hpa]
      · simp [hpy]
      · simp [hpq]
    · rw [hother p hp']
      exact hp
  have M : Merged s s2 c pga pgb := ⟨⟨_, hpa, rfl, rfl, rfl⟩, hpq, by rw [hs2]; rfl⟩
  have hshort := M.short h.up h.alloc h.order F (fun p hp => ?_) (by simp) fun p hp => ?_
  · have := hshort.setLastLeaf last
    rw [hs1]
    rw [hs2] at this
    exact this
  · simp only [List.mem_cons, List.not_mem_nil, or_false] at hp
    rcases hp with rfl | rfl | rfl
    · exact Or.inr (hlev _ (by simp [Siblings.level]))
    · exact Or.inr hyup
    · exact Or.inl rfl
  · by_cases h1 : p = c.a
    · rw [h1, parentAt_eq hpa, parentAt_eq ha]
    by_cases h2 : p = y
    · rw [h2, parentAt_eq hpy, parentAt_eq hypg]
    · have h3 : p ≠ c.q := fun hh => hlev p hp (by simp [Siblings.upper, hh])
      exact parentAt_of_pages (hpo p h1 h2 h3)

/-- `coalesce_or_redistribute` at a leaf makes the index a tree with the same entries. -/
theorem coalesceOrRedistribute_leaf {s : IxIndexHandle K} {l : List Int} {x : Int}
    {ls : List (List Int)} {fuel : Nat} (h : Shrunk s l x ls) (hfuel : ls.length < fuel) :
    ∃ s' d l' ls', coalesceOrRedistribute fuel s x = some (s', d) ∧ Tree s' l' ls' ∧
      cat s' l' = cat s l := by
  obtain ⟨fuel, rfl⟩ : ∃ n, fuel = n + 1 := ⟨fuel - 1, by omega⟩
  obtain ⟨pgx, hpgx, hlx⟩ := h.leaves.leaf x h.mem
  cases ls with
  | nil =>
      obtain ⟨k, hk, hpar⟩ := h.up
      have hroot : x = s.rootPage := by
        have := congrArg pagesOf hk
        rw [pagesOf_view] at this
        have hl : l = [s.rootPage] := by simpa [childRid, pagesOf] using this
        simpa [hl] using h.mem
      have hno : pgx.parent = ixNoPage := by rw [← parentAt_eq hpgx, hroot, hpar]
      refine ⟨s, false, l, [], ?_, h.tree (by simp), rfl⟩
      simp [coalesceOrRedistribute, hpgx, hno, adjustRoot, hlx]
  | cons m ls =>
      obtain ⟨c, rfl, rfl, hx⟩ := h.up.siblings h.mem h.alloc h.order
      have hq := h.alloc.range c.q (by simp [Siblings.upper])
      have hq' : c.q ≠ ixNoPage := by simp only [ixNoPage]; omega
      by_cases hsz : s.getMinSize ≤ pgx.slots.length
      · refine ⟨s, false, _, _, ?_, h.tree (by simpa [slotsAt_eq hpgx] using hsz), rfl⟩
        have hpar : pgx.parent = c.q := by rw [← parentAt_eq hpgx, hx.parent]
        simp [coalesceOrRedistribute, hpgx, hpar, hq', IxPage.getSize, hsz]
      obtain ⟨pga, ha, hla⟩ := h.leaves.leaf c.a (by simp [Siblings.level])
      obtain ⟨pgb, hb, hlb⟩ := h.leaves.leaf c.b (by simp [Siblings.level])
      have hal := h.alloc_pair pgb hla
      have hqf : s.fetchNode c.q = some c.pgq := by rw [hal.fetchNode (by simp), c.page]
      rw [coalesceOrRedistribute_step c ha hb hal hx h.alloc hqf hq' hpgx (by omega)]
      obtain ⟨hsa, hsa1, hsa2⟩ := h.size (by simp [Siblings.level]) ha
      obtain ⟨hsb, hsb1, hsb2⟩ := h.size (by simp [Siblings.level]) hb
      have hmin : 2 ≤ s.getMinSize ∧ 2 * s.getMinSize ≤ s.getMaxSize := by
        have := h.order
        simp only [getMinSize, getMaxSize]
        omega
      by_cases htot : 2 * s.getMinSize ≤ pga.slots.length + pgb.slots.length
      · rw [if_pos htot]
        obtain ⟨s', SA, SB, hrun, R⟩ := redistribute_spec c ha hb hal hx (hlb.trans hla.symm)
          (by simp [hla]) h.order (h.short (by simp)) (by rw [slotsAt_eq hpgx]; omega) hsa hsb htot
        obtain ⟨ht, hcat⟩ := h.redistributed ha hb hla hlb hx R
        exact ⟨s', false, _, _, by rw [hrun]; rfl, ht, hcat⟩
      · rw [if_neg htot]
        have hsum : s.getMinSize ≤ pga.slots.length + pgb.slots.length := by
          by_cases hax : c.a = x
          · have := hsb2 fun hbx => (c.apart hal).1 (hax.trans hbx.symm)
            omega
          · have := hsa2 hax
            omega
        obtain ⟨y, ypg, hy, hypg, hya, hyA, hyup, hrun⟩ := coalesce_leaf_eq h ha hb hla hlb hx
        obtain ⟨s1, hs1⟩ : ∃ s1, s1 = mergeLeafState s c pga pgb ypg y
          (if c.b = s.lastLeaf then c.a else s.lastLeaf) := ⟨_, rfl⟩
        have hshort := h.above ha hla hypg hya hyup hs1
        obtain ⟨s', d, hrun', hB⟩ := coalesceOrRedistribute_inner ls fuel s1 _ _ _ hshort
          (by simpa using hfuel)
        have hne : pga.slots ≠ [] := by
          intro hnil
          simp only [hnil, List.length_nil] at hsa1
          omega
        obtain ⟨ls', ht, hcat⟩ := h.merged ha hb hla hx hsum (by omega) hs1 hy hypg hya hyA
          hyup hne hB
        refine ⟨s', decide (c.idx x ≠ 0), _, ls', ?_, ht, hcat⟩
        rw [hrun, Option.bind_some, ← hs1, hrun']
        rfl

/-! ## `delete_entry` -/

/-- The leaf gives up the entry, and the keys above follow unless the leaf is empty: that is
the root, with no keys above. -/
theorem Tree.shrink {s : IxIndexHandle K} {l : List Int} {ls : List (List Int)} (h : Tree s l ls)
    {k : K} {r : Rid} {x : Int} {A B : List Int} {pg : IxPage K} (hx : LeafFor s l k x A B pg)
    {S1 S2 : List (K × Rid)} (hS : pg.slots = S1 ++ (k, r) :: S2) :
    ∃ s', (if (IxPage.getSize { pg with slots := S1 ++ S2 }) > 0 then
        maintainParent (s.setNode x { pg with slots := S1 ++ S2 }).rounds
          (s.setNode x { pg with slots := S1 ++ S2 }) x
        else some (s.setNode x { pg with slots := S1 ++ S2 })) = some s' ∧
      Shrunk s' l x ls ∧ cat s' l = cat s A ++ (S1 ++ S2) ++ cat s B := by
  have hinc : Increasing (cat s A ++ (S1 ++ S2) ++ cat s B) := by
    have := h.leaves.sorted
    rw [hx.level, cat_append, cat_cons, slotsAt_eq hx.page, hS] at this
    refine List.Pairwise.sublist ?_ this
    rw [List.append_assoc]
    exact (((List.sublist_cons_self _ _).append_left _).append_right _).append_left _
  have hmem : x ∈ l := by simp [hx.level]
  have hszx := h.sized x hmem
  rw [Sized, slotsAt_eq hx.page, hS, List.length_append, List.length_cons] at hszx
  have hshrunk : ∀ s', fixed s' = fixed s →
      (∀ p ∈ A ++ B, s'.pages p = s.pages p) →
      s'.pages x = some { pg with slots := S1 ++ S2 } → Leaves s' l →
      Alloc s' (l ++ ls.flatten) → Up s' (view s' l) ls → Shrunk s' l x ls := by
    intro s' hfix hother hpx hL ha hup
    have hord : s'.btreeOrder = s.btreeOrder := congrArg Prod.fst hfix
    have hmax : s'.getMaxSize = s.getMaxSize := by simp [getMaxSize, hord]
    have hmin : s'.getMinSize = s.getMinSize := by simp [getMinSize, hmax]
    have hslx : slotsAt s' x = S1 ++ S2 := slotsAt_eq hpx
    refine ⟨hord ▸ h.order, hL, hmem, fun p hp hpx' => ?_, ?_, fun hls => ?_, hup, ha, ?_⟩
    · rw [hmin]
      refine (h.sized p hp).congr (slotsAt_of_pages (hother p ?_)) hmax
      rw [hx.level] at hp
      simp only [List.mem_append, List.mem_cons] at hp ⊢
      tauto
    · simp only [hslx, hmax, List.length_append]
      omega
    · rw [if_neg hls] at hszx
      simp only [hslx, hmin, List.length_append]
      omega
    · have e1 : s'.pinnedLeafPage = s.pinnedLeafPage := congrArg (fun t => t.2.2.2.2.2) hfix
      have e2 : s'.pinnedLeafNo = s.pinnedLeafNo := congrArg (fun t => t.2.2.2.2.1) hfix
      rw [e1, e2]
      exact h.pinned
  by_cases hpos : (IxPage.getSize { pg with slots := S1 ++ S2 }) > 0
  · rw [if_pos hpos]
    obtain ⟨s', hrun, hcat, hL, ha, hup, hother, hpx, hfix⟩ :=
      h.rewriteLeaf_maintain hx.level hx.page hinc
    exact ⟨s', hrun, hshrunk s' hfix hother hpx hL ha hup, hcat⟩
  · rw [if_neg hpos]
    obtain ⟨s', hs', hcat, hL, ha, hup, hother⟩ := h.rewriteLeaf hx.level hx.page hinc
    have hpx : s'.pages x = some { pg with slots := S1 ++ S2 } := by simp [hs']
    refine ⟨s', by rw [hs'], hshrunk s' (by rw [hs']; rfl) hother hpx hL ha ?_, hcat⟩
    have hls : ls = [] := by
      by_contra hls
      have hord := h.order
      rw [if_neg hls] at hszx
      simp only [IxPage.getSize, List.length_append, getMinSize, getMaxSize] at hpos hszx
      omega
    subst hls
    obtain ⟨p, hp⟩ := h.single rfl
    obtain ⟨rfl, rfl⟩ : A = [] ∧ B = [] := by
      have := hx.level.symm.trans hp
      cases A <;> simp_all
    obtain ⟨k', hk', hroot⟩ := hup
    obtain rfl : x = s'.rootPage := by
      have := congrArg pagesOf hk'
      simpa [pagesOf, childRid] using this
    exact ⟨firstKey s' s'.rootPage, by rw [hx.level]; rfl, hroot⟩

omit [Inhabited K] in
/-- A key beside the entries of its leaf is not in the index. -/
theorem LeafFor.absent {s : IxIndexHandle K} {l : List Int} {k : K} {x : Int} {A B : List Int}
    {pg : IxPage K} (h : LeafFor s l k x A B pg) {S1 S2 : List (K × Rid)}
    (hS : pg.slots = S1 ++ S2) (h1 : ∀ e ∈ S1, e.1 < k) (h2 : ∀ e ∈ S2, k < e.1) :
    (cat s l).lookup k = none := by
  rw [h.lookup, hS, List.lookup_eq_none_iff]
  intro e he
  rcases List.mem_append.1 he with he | he
  · exact bne_iff_ne.2 (ne_of_gt (h1 e he))
  · exact bne_iff_ne.2 (ne_of_lt (h2 e he))

theorem deleteEntry_spec {s : IxIndexHandle K} {l : List Int} {ls : List (List Int)}
    (h : Tree s l ls) (k : K) : ∃ s' found l' ls', s.deleteEntry k = some (s', found) ∧
      Tree s' l' ls' ∧
      ((found = false ∧ (cat s l).lookup k = none ∧ cat s' l' = cat s l) ∨
        ∃ r, found = true ∧ Placed (cat s' l') (cat s l) k r) := by
  obtain ⟨s0, hs0, h0, hcat0⟩ : ∃ s0, s0 = ({ s with cachedLeafNo := ixNoPage } :
      IxIndexHandle K).releasePinnedLeaf ∧ Tree s0 l ls ∧ cat s0 l = cat s l := by
    refine ⟨_, rfl, ?_⟩
    simp only [releasePinnedLeaf]
    split
    · exact ⟨h.setPins _ _ _ (by simp), rfl⟩
    · exact ⟨h.setPins _ _ _ h.pinned, rfl⟩
  obtain ⟨x, A, B, pg, hx, hrun⟩ := findLeafPage_spec h0 k
  have hinc : Increasing pg.slots := by
    rw [← slotsAt_eq hx.page]
    exact h0.leaves.sorted.slotsAt (by simp [hx.level])
  simp only [deleteEntry, ← hs0, hrun, Option.bind_eq_bind, Option.bind_some, hx.page]
  rw [← hcat0]
  rcases remove_cases pg k hinc with ⟨S1, S2, hS, h1, h2, hrem⟩ | ⟨S1, r, S2, hS, h1, h2, hrem⟩
  · rw [hrem, if_pos rfl, setNode_self hx.page]
    exact ⟨s0, false, l, ls, rfl, h0, Or.inl ⟨rfl, hx.absent hS h1 h2, rfl⟩⟩
  · have hne : ¬ (IxPage.getSize { pg with slots := S1 ++ S2 }) = pg.getSize := by
      simp only [IxPage.getSize, hS, List.length_append, List.length_cons]
      omega
    obtain ⟨s1, hrun1, hsh, hcat1⟩ := h0.shrink hx hS
    have hne0 : l ≠ [] := List.ne_nil_of_mem hsh.mem
    obtain ⟨s', d, l', ls', hrun', ht, hcat'⟩ :=
      coalesceOrRedistribute_leaf hsh (hsh.up.length_lt hne0 hsh.alloc)
    rw [hrem, if_neg hne, hrun1, Option.bind_some, hrun', Option.bind_some]
    refine ⟨s', true, l', ls', rfl, ht, Or.inr ⟨r, rfl, cat s0 A ++ S1, S2 ++ cat s0 B, ?_, ?_,
      fun e he => ?_, fun e he => ?_⟩⟩
    · rw [hcat', hcat1]
      simp
    · rw [hx.level]
      simp [slotsAt_eq hx.page, hS]
    · exact (List.mem_append.1 he).elim (hx.before e) (h1 e)
    · exact (List.mem_append.1 he).elim (h2 e) (hx.after e)

end

end Rmdb.Index
