import Rmdb.Index.Shrink

/-!
# Balancing the internal levels

`coalesce_or_redistribute` at an internal page that has lost one entry leaves a well formed
tree over the same entries (`coalesceOrRedistribute_inner`): a root with one child gives way
to it, a page that is too small takes an entry from a neighbour or is merged with it.
-/

namespace Rmdb.Index

open IxIndexHandle

section
variable {K : Type} [Inhabited K]

/-- What `coalesce_or_redistribute` is called with: the level `l` above the entries `ks`,
where only `x` may lack one entry. -/
structure Short (s : IxIndexHandle K) (ks : List (K × Rid)) (l : List Int) (x : Int)
    (ls : List (List Int)) : Prop where
  entries : cat s l = ks
  rids : ∀ e ∈ ks, e.2 = childRid e.2.pageNo
  mem : x ∈ l
  inner : ∀ p ∈ l, Inner s p
  sized : ∀ p ∈ l, p ≠ x → Sized s (lowest s ls) p
  lt : (slotsAt s x).length < s.getMaxSize
  pos : 1 ≤ (slotsAt s x).length
  short : ls ≠ [] → s.getMinSize ≤ (slotsAt s x).length + 1
  up : Up s (view s l) ls
  alloc : Alloc s (pagesOf ks ++ (l :: ls).flatten)
  order : 2 < s.btreeOrder

/-- What it leaves: levels over the same entries, made of pages of the old ones. -/
def Balanced (s s' : IxIndexHandle K) (ks : List (K × Rid)) (l : List Int)
    (ls : List (List Int)) : Prop :=
  ∃ ls', Up s' ks ls' ∧ ls'.flatten.Sublist (l :: ls).flatten ∧
    Frame s s' (l :: ls).flatten (pagesOf ks)

theorem Short.unchanged {s : IxIndexHandle K} {ks : List (K × Rid)} {l : List Int} {x : Int}
    {ls : List (List Int)} (h : Short s ks l x ls)
    (hx : lowest s ls ≤ (slotsAt s x).length) : Balanced s s ks l ls := by
  refine ⟨l :: ls, ⟨h.entries, fun p hp => ⟨h.inner p hp, ?_⟩, h.up⟩, List.Sublist.refl _,
    Frame.refl _ _ _⟩
  by_cases hpx : p = x
  · rw [hpx]
    exact ⟨hx, h.lt⟩
  · exact h.sized p hp hpx

theorem coalesceOrRedistribute_root {s : IxIndexHandle K} {ks : List (K × Rid)} {l : List Int}
    {x : Int} {fuel : Nat} (h : Short s ks l x []) :
    ∃ s' d, coalesceOrRedistribute (fuel + 1) s x = some (s', d) ∧ Balanced s s' ks l [] := by
  obtain ⟨k, hk, hpar⟩ := h.up
  obtain rfl : l = [s.rootPage] := by
    have := congrArg pagesOf hk
    rw [pagesOf_view] at this
    simpa [childRid, pagesOf] using this
  obtain rfl : x = s.rootPage := by simpa using h.mem
  obtain ⟨⟨pg, hpg, hleaf⟩, -⟩ := h.inner s.rootPage (by simp)
  have hrun : coalesceOrRedistribute (fuel + 1) s s.rootPage = s.adjustRoot s.rootPage := by
    simp [coalesceOrRedistribute, hpg, parentAt_eq hpg ▸ hpar]
  have hks : ks = pg.slots := by
    rw [← h.entries]
    simp [slotsAt_eq hpg]
  rw [hrun]
  by_cases hone : pg.getSize = 1
  · obtain ⟨e, he⟩ := List.length_eq_one_iff.1 hone
    have hks' : ks = [e] := hks.trans he
    have hrid := h.rids e (by simp [hks'])
    obtain ⟨cp, hcp⟩ := Option.isSome_iff_exists.1 (h.alloc.isSome e.2.pageNo (by
      simp [hks', pagesOf]))
    have hval : pg.valueAt 0 = e.2.pageNo := by simp [IxPage.valueAt, IxPage.getRid, he]
    have hfetch : s.fetchNode e.2.pageNo = some cp := by
      rw [h.alloc.fetchNode (by simp [hks', pagesOf]), hcp]
    refine ⟨{ s.setNode e.2.pageNo (cp.setParentPageNo ixNoPage) with rootPage := e.2.pageNo },
      true, ?_, [], ⟨e.1, ?_, ?_⟩, by simp, ?_⟩
    · simp [adjustRoot, hpg, hleaf, hone, hval, hfetch]
    · rw [hks', ← hrid]
    · simp [parentAt, IxPage.setParentPageNo]
    · have hf := frame_setParent (q := ixNoPage) hcp
      exact ⟨rfl, hf.counted, hf.grows, hf.isSome, fun p hp _ => hf.core p hp (by simp),
        fun p hp _ hk => hf.same p hp (by simp) (by simpa [hks', pagesOf] using hk)⟩
  · refine ⟨s, false, by simp [adjustRoot, hpg, hone], h.unchanged ?_⟩
    have := h.pos
    rw [slotsAt_eq hpg] at this ⊢
    simp only [lowest, if_true, IxPage.getSize] at hone ⊢
    omega

section
variable {s : IxIndexHandle K} {c : Siblings s} {ks : List (K × Rid)} {x : Int}
  {ls : List (List Int)} (h : Short s ks c.level x (c.upper :: ls)) (hx : c.Of x)
  {pga pgb : IxPage K} (ha : s.pages c.a = some pga) (hb : s.pages c.b = some pgb)

include h ha hb in
theorem Short.entries_pair : ks = cat s c.A ++ (pga.slots ++ pgb.slots) ++ cat s c.B := by
  rw [← h.entries]
  simp [Siblings.level, slotsAt_eq ha, slotsAt_eq hb]

include h ha hb in
theorem Short.alloc_pair : Alloc s (kidsOf pga (pga.slots ++ pgb.slots) ++ [c.a, c.b, c.q]) := by
  refine h.alloc.sublist (List.Sublist.append ?_ ?_)
  · have hk : (kidsOf pga (pga.slots ++ pgb.slots)).Sublist (pagesOf (pga.slots ++ pgb.slots)) := by
      simp only [kidsOf]
      split
      · simp
      · exact List.Sublist.refl _
    refine hk.trans ?_
    rw [h.entries_pair ha hb, pagesOf_append _ (cat s c.B), pagesOf_append (cat s c.A)]
    exact (List.sublist_append_right _ _).trans (List.sublist_append_left _ _)
  · have h1 : [c.a, c.b].Sublist c.level :=
      (((List.nil_sublist _).cons_cons _).cons_cons _).trans (List.sublist_append_right _ _)
    have h2 : [c.q].Sublist (c.upper ++ ls.flatten) := by
      rw [List.singleton_sublist]
      simp [Siblings.upper]
    simpa using h1.append h2

/-- The pages of the level besides the pair. -/
theorem Siblings.mem_level {p : Int} : p ∈ c.level ↔ p = c.a ∨ p = c.b ∨ p ∈ c.A ++ c.B := by
  simp only [Siblings.level, List.mem_append, List.mem_cons]
  tauto

/-- The entries of the level above. -/
theorem Siblings.cat_upper : cat s c.upper = view s c.level := by
  simp [Siblings.upper, Siblings.level, c.left, c.right, slotsAt_eq c.page, c.slots]

include h in
/-- The pages of the pair's level, of its entries and of the levels above are apart. -/
theorem Short.apart : c.level.Nodup ∧
    (∀ p ∈ pagesOf ks, p ∉ c.level ∧ p ∉ c.upper ∧ p ∉ ls.flatten) ∧
    (∀ p ∈ c.level, p ∉ c.upper ∧ p ∉ ls.flatten) := by
  have hnd := h.alloc.nodup
  simp only [List.flatten_cons, List.nodup_append, List.mem_append] at hnd
  refine ⟨hnd.2.1.1, fun p hp => ⟨?_, ?_, ?_⟩, fun p hp => ⟨?_, ?_⟩⟩ <;> grind

include h in
theorem Short.lt_next {p : Int} (hp : p ∈ pagesOf ks ++ (c.level :: c.upper :: ls).flatten) :
    p < s.nextPageNo := (h.alloc.range p hp).2

theorem Redistributed.up {P : List Int} {s' : IxIndexHandle K} {SA SB : List (K × Rid)}
    (R : Redistributed s s' c pga pgb SA SB) (ha : s.pages c.a = some pga)
    (hb : s.pages c.b = some pgb) (hup : Up s (view s c.level) (c.upper :: ls))
    (hal : Alloc s (P ++ c.level ++ (c.upper :: ls).flatten))
    (hP : ∀ k ∈ kidsOf pga (SA ++ SB), k ∈ P) :
    Up s' (view s c.A ++ view s' [c.a, c.b] ++ view s c.B) (c.upper :: ls) := by
  obtain ⟨-, hm, hview⟩ := hup
  obtain ⟨-, -, hPq⟩ := hal.apart
  have hnd : c.level.Nodup ∧ ∀ p ∈ P, p ∉ c.level := by
    have := hal.nodup
    simp only [List.nodup_append, List.mem_append] at this
    exact ⟨this.1.2.1, fun p hp hp' => this.1.2.2 p hp p hp' rfl⟩
  have hlevel : ∀ p ∈ c.level, parentAt s' p = parentAt s p := by
    intro p hp
    have hlt := (hal.range p (by simp [hp])).2
    by_cases h1 : p = c.a
    · rw [h1, parentAt_eq R.pageA, parentAt_eq ha]
    by_cases h2 : p = c.b
    · rw [h2, parentAt_eq R.pageB, parentAt_eq hb]
    · refine parentAt_of_pages (R.frame.same p hlt ?_ fun hk => hnd.2 p (hP p hk) hp)
      simp [h1, h2, (hPq p (List.mem_append_right _ hp)).1]
  have hkeyA : firstKey s' c.a = firstKey s c.a := by
    rw [firstKey_eq R.pageA, firstKey_eq ha]
    exact congrArg Prod.fst R.head
  have hkeyB : firstKey s' c.b = (SB.getD 0 default).1 := by rw [firstKey_eq R.pageB]; rfl
  have hslq := slotsAt_eq R.pageQ
  have hkids : ∀ k ∈ pagesOf (slotsAt s c.q), k ∈ c.level := by
    intro k hk
    have : k ∈ pagesOf (cat s c.upper) := pagesOf_subset_cat (by simp [Siblings.upper]) k hk
    simpa [c.cat_upper] using this
  have hout : ∀ p ∈ P ++ c.level, p ∉ (c.upper :: ls).flatten := fun p hp hp' =>
    (List.nodup_append.1 hal.nodup).2.2 p hp p hp' rfl
  have hre := Up.replace hal hm hview R.frame (fun p hp => ?_)
    (fun k hk => hout k (List.mem_append_left _ (hP k hk))) R.root
    (by rw [parentAt_eq R.pageQ, parentAt_eq c.page]) ?_ ?_ ⟨⟨_, R.pageQ, c.inner⟩, ?_⟩ ?_
  · rw [hslq] at hre
    have : cat s c.M1 ++ (c.U ++ (firstKey s c.a, childRid c.a) ::
        ((SB.getD 0 default).1, childRid c.b) :: c.V) ++ cat s c.M2 =
        view s c.A ++ view s' [c.a, c.b] ++ view s c.B := by
      simp [c.left, c.right, hkeyA, hkeyB]
    rw [this] at hre
    exact hre
  · simp only [List.mem_cons, List.not_mem_nil, or_false] at hp
    rcases hp with rfl | rfl | rfl
    · exact Or.inr (hout _ (by simp [Siblings.level]))
    · exact Or.inr (hout _ (by simp [Siblings.level]))
    · exact Or.inl rfl
  · rw [firstKey_eq R.pageQ, firstKey_eq c.page]
    simp only [IxPage.getKey, c.slots]
    cases c.U <;> rfl
  · intro p hp
    refine hlevel p ?_
    have : p ∈ pagesOf (cat s c.upper) := by
      simp only [Siblings.upper, cat_append, cat_cons, pagesOf_append, List.mem_append] at hp ⊢
      tauto
    simpa [c.cat_upper] using this
  · intro k hk
    have hk' : k ∈ pagesOf (slotsAt s c.q) := by
      simpa [hslq, slotsAt_eq c.page, c.slots] using hk
    rw [hlevel k (hkids k hk'), (hm c.q (by simp [Siblings.upper])).1.2 k hk']
  · have := (hm c.q (by simp [Siblings.upper])).2
    simpa [Sized, hslq, slotsAt_eq c.page, c.slots, R.frame.maxSize] using this

include h ha hb in
theorem Short.pair_subset : ∀ k ∈ pagesOf (pga.slots ++ pgb.slots), k ∈ pagesOf ks := by
  intro k hk
  rw [h.entries_pair ha hb]
  simp only [pagesOf_append, List.mem_append] at hk ⊢
  tauto

include h in
theorem Short.beside {p : Int} (hp : p ∈ c.A ++ c.B) :
    p ∈ c.level ∧ p ≠ c.a ∧ p ≠ c.b ∧ p ≠ c.q := by
  obtain ⟨hnd, -, hlev⟩ := h.apart
  have hpl : p ∈ c.level := c.mem_level.2 (Or.inr (Or.inr hp))
  refine ⟨hpl, fun h => ?_, fun h => ?_, fun h => (hlev p hpl).1 (by simp [Siblings.upper, h])⟩ <;>
    simp only [Siblings.level, List.nodup_append, List.nodup_cons, List.mem_append,
      List.mem_cons] at hnd hp <;> grind

include h ha hb in
/-- A child of a page beside the pair is none of the pages that change. -/
theorem Short.kid_beside {p : Int} (hp : p ∈ pagesOf (cat s c.A ++ cat s c.B)) :
    p ∈ pagesOf ks ∧ p ∉ [c.a, c.b, c.q] ∧ p ∉ pagesOf (pga.slots ++ pgb.slots) := by
  obtain ⟨-, hks, -⟩ := h.apart
  have hpk : p ∈ pagesOf ks := by
    rw [h.entries_pair ha hb]
    simp only [pagesOf_append, List.mem_append] at hp ⊢
    tauto
  obtain ⟨h1, h2, -⟩ := hks p hpk
  refine ⟨hpk, ?_, fun hk => ?_⟩
  · simp only [List.mem_cons, List.not_mem_nil, or_false, not_or]
    exact ⟨fun h => h1 (c.mem_level.2 (Or.inl h)), fun h => h1 (c.mem_level.2 (Or.inr (Or.inl h))),
      fun h => h2 (by simp [Siblings.upper, h])⟩
  · have hnd := (List.nodup_append.1 h.alloc.nodup).1
    rw [h.entries_pair ha hb] at hnd
    simp only [pagesOf_append, List.nodup_append, List.mem_append] at hnd hp hk
    grind

include h ha hb in
theorem Short.redistributed {s' : IxIndexHandle K} {SA SB : List (K × Rid)} (hx : c.Of x)
    (hla : pga.isLeaf = false) (hlb : pgb.isLeaf = false)
    (R : Redistributed s s' c pga pgb SA SB) : Balanced s s' ks c.level (c.upper :: ls) := by
  obtain ⟨-, hks, -⟩ := h.apart
  have hlow : lowest s' (c.upper :: ls) = s.getMinSize := by simp [lowest, R.frame.minSize]
  have hkidsOf : ∀ k ∈ kidsOf pga (SA ++ SB), k ∈ pagesOf (pga.slots ++ pgb.slots) := by
    intro k hk
    rw [← R.append]
    exact (mem_kidsOf.1 hk).2
  have hpair := h.pair_subset ha hb
  have hupper := R.up (P := pagesOf ks) ha hb h.up (by simpa using h.alloc)
    fun k hk => hpair k (hkidsOf k hk)
  have hfr : ∀ p ∈ c.A ++ c.B, s'.pages p = s.pages p := by
    intro p hp
    obtain ⟨hpl, h1, h2, h3⟩ := h.beside hp
    exact R.frame.same p (h.lt_next (by simp [hpl])) (by simp [h1, h2, h3]) fun hk =>
      (hks p (hpair p (hkidsOf p hk))).1 hpl
  have hkid : ∀ p ∈ pagesOf (cat s c.A ++ cat s c.B), parentAt s' p = parentAt s p := by
    intro p hp
    obtain ⟨hpk, h1, h2⟩ := h.kid_beside ha hb hp
    exact parentAt_of_pages (R.frame.same p (h.lt_next (by simp [hpk])) h1 fun hk =>
      h2 (hkidsOf p hk))
  have hQ : ∀ p ∈ [c.a, c.b], Inner s' p ∧ Sized s' (lowest s' (c.upper :: ls)) p := by
    intro p hp
    simp only [List.mem_cons, List.not_mem_nil, or_false] at hp
    rw [hlow]
    rcases hp with rfl | rfl
    · refine ⟨⟨⟨_, R.pageA, hla⟩, ?_⟩, ?_⟩
      · rw [slotsAt_eq R.pageA]
        exact (R.kids hla).1
      · simpa [Sized, slotsAt_eq R.pageA, R.frame.maxSize] using R.sizedA
    · refine ⟨⟨⟨_, R.pageB, hlb⟩, ?_⟩, ?_⟩
      · rw [slotsAt_eq R.pageB]
        exact (R.kids hla).2
      · simpa [Sized, slotsAt_eq R.pageB, R.frame.maxSize] using R.sizedB
  have hre := Up.rebuild (s := s) R.frame.maxSize (fun p hp => ?_)
    (fun p hp => by simp [coreAt, hfr p hp]) hkid hQ hupper
  · refine ⟨c.level :: c.upper :: ls, ?_, List.Sublist.refl _, ?_⟩
    · have hcat : cat s c.A ++ cat s' [c.a, c.b] ++ cat s c.B = ks := by
        rw [h.entries_pair ha hb, ← R.append]
        simp [slotsAt_eq R.pageA, slotsAt_eq R.pageB]
      rw [hcat] at hre
      simpa [Siblings.level] using hre
    · refine R.frame.mono (fun p hp => ?_) fun p hp => Or.inr (hpair p (hkidsOf p hp))
      simp only [List.mem_cons, List.not_mem_nil, or_false] at hp
      rcases hp with rfl | rfl | rfl <;> simp [Siblings.level, Siblings.upper]
  · obtain ⟨hpl, h1, h2, -⟩ := h.beside hp
    refine ⟨h.inner p hpl, ?_⟩
    have hpx : p ≠ x := fun hpx => hx.side.elim (fun hh => h1 (hpx.trans hh.1)) fun hh =>
      h2 (hpx.trans hh)
    rw [hlow]
    simpa [lowest] using h.sized p hpl hpx

/-- After a merge the page above may be short of one entry, and nothing else has changed. -/
theorem Merged.short {T C : List Int} {s1 : IxIndexHandle K} (M : Merged s s1 c pga pgb)
    (hup : Up s (view s c.level) (c.upper :: ls))
    (hal : Alloc s (c.level ++ (c.upper :: ls).flatten)) (ho : 2 < s.btreeOrder)
    (hf : Frame s s1 T C) (hT : ∀ p ∈ T, p = c.q ∨ p ∉ (c.upper :: ls).flatten)
    (hC : ∀ p ∈ C, p ∉ (c.upper :: ls).flatten)
    (hpar : ∀ p ∈ c.level, parentAt s1 p = parentAt s p) :
    Short s1 (view s (c.A ++ c.a :: c.B)) c.upper c.q ls := by
  obtain ⟨-, hm, hview⟩ := hup
  have hslq := slotsAt_eq M.pageQ
  have hmem : ∀ p ∈ c.upper, p ∈ (c.upper :: ls).flatten := fun p hp => by simp [hp]
  have hcore : ∀ p ∈ c.upper, p ≠ c.q → coreAt s1 p = coreAt s p := fun p hp hpq =>
    hf.core p (hal.range p (List.mem_append_right _ (hmem p hp))).2 fun h =>
      (hT p h).elim hpq fun h' => h' (hmem p hp)
  have hkids : ∀ p ∈ c.upper, ∀ k ∈ pagesOf (slotsAt s p), k ∈ c.level := by
    intro p hp k hk
    have := pagesOf_subset_cat hp k hk
    simpa [c.cat_upper] using this
  have hM : ∀ p ∈ c.M1 ++ c.M2, p ∈ c.upper ∧ p ≠ c.q := by
    intro p hp
    have hnd := (List.nodup_append.1 (List.nodup_append.1 hal.nodup).2.1).1
    simp only [Siblings.upper, List.nodup_append, List.nodup_cons, List.mem_append,
      List.mem_cons] at hnd hp ⊢
    grind
  have hslM : ∀ p ∈ c.M1 ++ c.M2, slotsAt s1 p = slotsAt s p := fun p hp =>
    slotsAt_of_core (hcore p (hM p hp).1 (hM p hp).2)
  have hM1 : ∀ p ∈ c.M1, slotsAt s1 p = slotsAt s p := fun p hp => hslM p (by simp [hp])
  have hM2 : ∀ p ∈ c.M2, slotsAt s1 p = slotsAt s p := fun p hp => hslM p (by simp [hp])
  have hlow : lowest s1 ls = lowest s ls := by simp [lowest, hf.minSize]
  have hkey : firstKey s1 c.q = firstKey s c.q := by
    rw [firstKey_eq M.pageQ, firstKey_eq c.page]
    simp only [IxPage.getKey, c.slots]
    cases c.U <;> rfl
  have hszq := (hm c.q (by simp [Siblings.upper])).2
  simp only [Sized, slotsAt_eq c.page, c.slots, List.length_append, List.length_cons] at hszq
  refine ⟨?_, fun e he => ?_, by simp [Siblings.upper], fun p hp => ?_, fun p hp hpq => ?_, ?_, ?_,
    fun hls => ?_, ?_, ?_, by rw [hf.order]; exact ho⟩
  · simp [Siblings.upper, cat_congr hM1, cat_congr hM2, hslq, c.left, c.right]
  · obtain ⟨p, -, rfl⟩ := List.mem_map.1 he
    rfl
  · by_cases hpq : p = c.q
    · rw [hpq]
      refine ⟨⟨_, M.pageQ, c.inner⟩, fun k hk => ?_⟩
      have hk' : k ∈ pagesOf (slotsAt s c.q) := by
        simp only [hslq, slotsAt_eq c.page, c.slots, pagesOf_append, pagesOf_cons, List.mem_append,
          List.mem_cons] at hk ⊢
        tauto
      rw [hpar k (hkids c.q (hpq ▸ hp) k hk'), (hm c.q (hpq ▸ hp)).1.2 k hk']
    · exact (hm p hp).1.congr (hcore p hp hpq) fun k hk => hpar k (hkids p hp k hk)
  · rw [hlow]
    exact (hm p hp).2.congr (slotsAt_of_core (hcore p hp hpq)) hf.maxSize
  · simp only [hslq, hf.maxSize, List.length_append, List.length_cons]
    omega
  · simp only [hslq, List.length_append, List.length_cons]
    omega
  · have : lowest s ls = s.getMinSize := by simp [lowest, hls]
    simp only [hslq, hf.minSize, List.length_append, List.length_cons]
    omega
  · have := hview.above hal hf hT hC M.root (by rw [parentAt_eq M.pageQ, parentAt_eq c.page])
    simpa [Siblings.upper, view_congr hM1, view_congr hM2, hkey] using this
  · refine (hal.frame hf).sublist (List.Sublist.append ?_ (List.Sublist.refl _))
    rw [pagesOf_view]
    exact ((List.sublist_cons_self _ _).cons_cons _).append_left _

include h ha hb in
theorem Short.merged {s1 s' : IxIndexHandle K} (hx : c.Of x) (hla : pga.isLeaf = false)
    (hne : pga.slots ≠ [])
    (hmin : s.getMinSize ≤ pga.slots.length + pgb.slots.length)
    (hmax : pga.slots.length + pgb.slots.length < s.getMaxSize)
    (hkp : ∀ k ∈ pagesOf pga.slots, parentAt s k = c.a) (M : Merged s s1 c pga pgb)
    (F : Frame s s1 [c.a, c.q] (pagesOf pgb.slots))
    (hkb : ∀ k ∈ pagesOf pgb.slots, parentAt s1 k = c.a)
    (B : Balanced s1 s' (view s (c.A ++ c.a :: c.B)) c.upper ls) :
    Balanced s s' ks c.level (c.upper :: ls) := by
  obtain ⟨ls', hup', hsub, hf'⟩ := B
  rw [pagesOf_view] at hf'
  obtain ⟨-, hks, hlev⟩ := h.apart
  obtain ⟨pg1, hpg1, hsl1, hleaf1, -⟩ := M.pageA
  have hgrow := F.grows
  have hpair := h.pair_subset ha hb
  have hAl : ∀ p ∈ c.A ++ c.a :: c.B, p ∈ c.level := by
    intro p hp
    simp only [Siblings.level, List.mem_append, List.mem_cons] at hp ⊢
    tauto
  -- the pages of the level keep their content, their children everything
  have hlevel : ∀ p ∈ c.A ++ c.a :: c.B, coreAt s' p = coreAt s1 p := by
    intro p hp
    have hlt := h.lt_next (p := p) (by simp [hAl p hp])
    refine hf'.core p (by omega) ?_
    simp only [List.flatten_cons, List.mem_append, not_or]
    exact hlev p (hAl p hp)
  have hkids : ∀ k ∈ pagesOf ks, s'.pages k = s1.pages k := by
    intro k hk
    have hlt := h.lt_next (p := k) (by simp [hk])
    obtain ⟨h1, h2, h3⟩ := hks k hk
    refine hf'.same k (by omega) ?_ fun hk' => h1 (hAl k hk')
    simp only [List.flatten_cons, List.mem_append, not_or]
    exact ⟨h2, h3⟩
  have hbeside : ∀ p ∈ c.A ++ c.B, coreAt s' p = coreAt s p := by
    intro p hp
    obtain ⟨hpl, h1, -, h3⟩ := h.beside hp
    rw [hlevel p (by simp only [List.mem_append, List.mem_cons] at hp ⊢; tauto)]
    exact F.core p (h.lt_next (by simp [hpl])) (by simp [h1, h3])
  have hkey : firstKey s' c.a = firstKey s c.a := by
    rw [firstKey_congr (slotsAt_of_core (hlevel c.a (by simp))), firstKey_eq hpg1, firstKey_eq ha]
    simp only [IxPage.getKey, hsl1]
    cases hp : pga.slots with
    | nil => exact absurd hp hne
    | cons e S => rfl
  have hsla : slotsAt s' c.a = pga.slots ++ pgb.slots := by
    rw [slotsAt_of_core (hlevel c.a (by simp)), slotsAt_eq hpg1, hsl1]
  have hQ : ∀ p ∈ [c.a], Inner s' p ∧ Sized s' (lowest s' ls') p := by
    intro p hp
    obtain rfl : p = c.a := by simpa using hp
    refine ⟨Inner.congr (s := s1) ⟨⟨pg1, hpg1, hleaf1.trans hla⟩, fun k hk => ?_⟩
      (hlevel c.a (by simp)) fun k hk => ?_, ?_⟩
    · rw [slotsAt_eq hpg1, hsl1, pagesOf_append] at hk
      rcases List.mem_append.1 hk with hk | hk
      · by_cases hkb' : k ∈ pagesOf pgb.slots
        · exact hkb k hkb'
        · have hk' := hpair k (by simp [hk])
          obtain ⟨h1, h2, -⟩ := hks k hk'
          rw [parentAt_of_pages (F.same k (h.lt_next (by simp [hk'])) ?_ hkb'), hkp k hk]
          simp only [List.mem_cons, List.not_mem_nil, or_false, not_or]
          exact ⟨fun h => h1 (by simp [Siblings.level, h]), fun h => h2 (by simp [Siblings.upper, h])⟩
      · exact hkb k hk
    · rw [slotsAt_eq hpg1, hsl1] at hk
      exact parentAt_of_pages (hkids k (hpair k hk))
    · have hord : s'.btreeOrder = s.btreeOrder := hf'.order.trans F.order
      have hlow := lowest_le_min (s := s') (by rw [hord]; exact h.order) ls'
      have hmin' : s'.getMinSize = s.getMinSize := hf'.minSize.trans F.minSize
      simp only [Sized, hsla, List.length_append, hf'.maxSize, F.maxSize]
      omega
  have hre := Up.rebuild (s := s) (hf'.maxSize.trans F.maxSize) (fun p hp => ?_) hbeside
    (fun p hp => ?_) hQ (by simpa [hkey] using hup')
  · refine ⟨(c.A ++ [c.a] ++ c.B) :: ls', ?_, ?_, ?_⟩
    · rw [h.entries_pair ha hb]
      simpa [hsla] using hre
    · rw [List.flatten_cons, List.flatten_cons]
      refine List.Sublist.append ?_ hsub
      simp only [Siblings.level, List.append_assoc, List.singleton_append]
      exact ((List.sublist_cons_self _ _).cons_cons _).append_left _
    · refine F.trans hf' (fun p _ hp => ?_) (fun p _ hp => ?_)
        (fun p _ hp => Or.inr (hpair p (by simp [hp]))) fun p _ hp => Or.inl ?_
      · simp only [List.mem_cons, List.not_mem_nil, or_false] at hp
        rcases hp with rfl | rfl <;> simp [Siblings.level, Siblings.upper]
      · simp only [List.flatten_cons, List.mem_append] at hp ⊢
        tauto
      · simp [hAl p hp]
  · obtain ⟨hpl, h1, h2, -⟩ := h.beside hp
    have hpx : p ≠ x := fun hpx => hx.side.elim (fun hh => h1 (hpx.trans hh.1)) fun hh =>
      h2 (hpx.trans hh)
    have hord : s'.btreeOrder = s.btreeOrder := hf'.order.trans F.order
    have hlow := lowest_le_min (s := s') (by rw [hord]; exact h.order) ls'
    have hmin' : s'.getMinSize = s.getMinSize := hf'.minSize.trans F.minSize
    have hsz := h.sized p hpl hpx
    simp only [lowest, reduceCtorEq, if_false] at hsz
    exact ⟨h.inner p hpl, Nat.le_trans (by omega) hsz.1, hsz.2⟩
  · obtain ⟨hpk, h1, h2⟩ := h.kid_beside ha hb hp
    rw [parentAt_of_pages (hkids p hpk)]
    refine parentAt_of_pages (F.same p (h.lt_next (by simp [hpk])) ?_ fun hp => h2 (by simp [hp]))
    simp only [List.mem_cons, List.not_mem_nil, or_false, not_or] at h1 ⊢
    exact ⟨h1.1, h1.2.2⟩

end

theorem Short.size {s : IxIndexHandle K} {ks : List (K × Rid)} {l m : List Int} {x p : Int}
    {ls : List (List Int)} {pg : IxPage K} (h : Short s ks l x (m :: ls)) (hp : p ∈ l)
    (hpg : s.pages p = some pg) : pg.slots.length < s.getMaxSize ∧
      s.getMinSize ≤ pg.slots.length + 1 ∧ (p ≠ x → s.getMinSize ≤ pg.slots.length) := by
  by_cases hpx : p = x
  · have h1 := h.lt
    have h2 := h.short (by simp)
    rw [← hpx, slotsAt_eq hpg] at h1 h2
    exact ⟨h1, h2, fun h => absurd hpx h⟩
  · have h1 := h.sized p hp hpx
    simp only [Sized, slotsAt_eq hpg, lowest, reduceCtorEq, if_false] at h1
    exact ⟨h1.2, by omega, fun _ => h1.1⟩

/-- `coalesce_or_redistribute` restores the internal levels above the entries `ks`. -/
theorem coalesceOrRedistribute_inner : ∀ (ls : List (List Int)) (fuel : Nat)
    (s : IxIndexHandle K) (ks : List (K × Rid)) (l : List Int) (x : Int), Short s ks l x ls →
    ls.length < fuel →
    ∃ s' d, coalesceOrRedistribute fuel s x = some (s', d) ∧ Balanced s s' ks l ls := by
  intro ls
  induction ls with
  | nil =>
      intro fuel s ks l x h hfuel
      obtain ⟨fuel, rfl⟩ : ∃ n, fuel = n + 1 := ⟨fuel - 1, by omega⟩
      exact coalesceOrRedistribute_root h
  | cons m ls ih =>
      intro fuel s ks l x h hfuel
      obtain ⟨fuel, rfl⟩ : ∃ n, fuel = n + 1 := ⟨fuel - 1, by omega⟩
      have hall : Alloc s (l ++ (m :: ls).flatten) :=
        h.alloc.sublist (by simp)
      obtain ⟨c, rfl, rfl, hx⟩ := h.up.siblings h.mem hall h.order
      obtain ⟨⟨pgx, hpgx, -⟩, -⟩ := h.inner x h.mem
      obtain ⟨⟨pga, ha, hla⟩, hka⟩ := h.inner c.a (by simp [Siblings.level])
      obtain ⟨⟨pgb, hb, hlb⟩, hkb⟩ := h.inner c.b (by simp [Siblings.level])
      rw [slotsAt_eq ha] at hka
      rw [slotsAt_eq hb] at hkb
      have hq := h.alloc.range c.q (by simp [Siblings.upper])
      have hq' : c.q ≠ ixNoPage := by simp only [ixNoPage]; omega
      by_cases hsz : s.getMinSize ≤ pgx.slots.length
      · refine ⟨s, false, ?_, h.unchanged (by simpa [lowest, slotsAt_eq hpgx] using hsz)⟩
        have hpar : pgx.parent = c.q := by rw [← parentAt_eq hpgx, hx.parent]
        simp [coalesceOrRedistribute, hpgx, hpar, hq', IxPage.getSize, hsz]
      have hal := h.alloc_pair ha hb
      have hqf : s.fetchNode c.q = some c.pgq := by rw [hal.fetchNode (by simp), c.page]
      rw [coalesceOrRedistribute_step c ha hb hal hx hall hqf hq' hpgx (by omega)]
      obtain ⟨hsa, hsa1, hsa2⟩ := h.size (by simp [Siblings.level]) ha
      obtain ⟨hsb, hsb1, hsb2⟩ := h.size (by simp [Siblings.level]) hb
      have hone : c.a ≠ x ∨ c.b ≠ x := by
        by_contra hno
        rw [not_or, not_not, not_not] at hno
        exact (c.apart hal).1 (hno.1.trans hno.2.symm)
      have hmin : 2 ≤ s.getMinSize ∧ 2 * s.getMinSize ≤ s.getMaxSize := by
        have := h.order
        simp only [getMinSize, getMaxSize]
        omega
      have hsum : s.getMinSize ≤ pga.slots.length + pgb.slots.length := by
        rcases hone with hne | hne
        · have := hsa2 hne
          omega
        · have := hsb2 hne
          omega
      by_cases htot : 2 * s.getMinSize ≤ pga.slots.length + pgb.slots.length
      · rw [if_pos htot]
        obtain ⟨s', SA, SB, hrun, R⟩ := redistribute_spec c ha hb hal hx (hlb.trans hla.symm)
          (fun _ => ⟨hka, hkb⟩) h.order (h.short (by simp)) (by rw [slotsAt_eq hpgx]; omega) hsa hsb
          htot
        exact ⟨s', false, by rw [hrun]; rfl, h.redistributed ha hb hx hla hlb R⟩
      · rw [if_neg htot]
        obtain ⟨s1, hrun, M, F, hkb1⟩ := coalesce_inner_spec c ha hb hal hx hla hlb
        have hout : ∀ p ∈ pagesOf ks ++ c.level, p ∉ (c.upper :: ls).flatten := by
          intro p hp hp'
          have hnd := h.alloc.nodup
          rw [List.flatten_cons, ← List.append_assoc] at hnd
          exact (List.nodup_append.1 hnd).2.2 p hp p hp' rfl
        have hpair := h.pair_subset ha hb
        have hshort := M.short h.up hall h.order F ?_ ?_ ?_
        · obtain ⟨s', d, hrun', hB⟩ := ih fuel s1 _ _ _ hshort (by simpa using hfuel)
          refine ⟨s', decide (c.idx x ≠ 0), ?_, h.merged ha hb hx hla ?_ hsum (by omega) hka M F
            hkb1 hB⟩
          · rw [hrun, Option.bind_some, hrun']
            rfl
          · intro hnil
            simp only [hnil, List.length_nil] at hsa1
            omega
        · intro p hp
          simp only [List.mem_cons, List.not_mem_nil, or_false] at hp
          rcases hp with rfl | rfl
          · exact Or.inr (hout _ (by simp [Siblings.level]))
          · exact Or.inl rfl
        · exact fun p hp => hout p (List.mem_append_left _ (hpair p (by simp [hp])))
        · intro p hp
          obtain ⟨pg1, hpg1, -, -, hpar1⟩ := M.pageA
          by_cases hpa : p = c.a
          · rw [hpa, parentAt_eq hpg1, parentAt_eq ha, hpar1]
          · obtain ⟨-, hks, hlev⟩ := h.apart
            refine parentAt_of_pages (F.same p (h.lt_next (by simp [hp])) ?_ fun hk => ?_)
            · simp only [List.mem_cons, List.not_mem_nil, or_false, not_or]
              exact ⟨hpa, fun h => (hlev p hp).1 (by simp [Siblings.upper, h])⟩
            · exact (hks p (hpair p (by simp [hk]))).1 hp

end

end Rmdb.Index
