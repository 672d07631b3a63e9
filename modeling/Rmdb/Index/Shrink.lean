import Rmdb.Index.Climb

/-!
# Redistributing and merging neighbours

`coalesce_or_redistribute` works on two neighbouring pages `a`, `b` of a level and the page
`q` above that holds both (`Siblings`).  `redistribute` moves one entry between them
(`redistribute_spec`), `coalesce` appends `b` to `a` and drops `b` from `q`
(`coalesce_inner_spec`); after a merge the same is done one level up, which is the induction
of `coalesceOrRedistribute_inner`.
-/

namespace Rmdb.Index

open IxIndexHandle

section
variable {K : Type} [Inhabited K]

/-- Two neighbouring pages `a`, `b` of a level whose entries are in one page `q` above. -/
structure Siblings (s : IxIndexHandle K) where
  A : List Int
  B : List Int
  M1 : List Int
  M2 : List Int
  a : Int
  b : Int
  q : Int
  U : List (K × Rid)
  V : List (K × Rid)
  pgq : IxPage K
  left : view s A = cat s M1 ++ U
  right : view s B = V ++ cat s M2
  page : s.pages q = some pgq
  slots : pgq.slots = U ++ (firstKey s a, childRid a) :: (firstKey s b, childRid b) :: V
  inner : pgq.isLeaf = false

/-- The level of the pair, and the level above. -/
def Siblings.level {s : IxIndexHandle K} (c : Siblings s) : List Int := c.A ++ c.a :: c.b :: c.B
def Siblings.upper {s : IxIndexHandle K} (c : Siblings s) : List Int := c.M1 ++ c.q :: c.M2

/-- `x` is the page of the pair that `coalesce_or_redistribute` looks at: the right one, or
the left one when it is a first child. -/
structure Siblings.Of {s : IxIndexHandle K} (c : Siblings s) (x : Int) : Prop where
  parent : parentAt s x = c.q
  side : (x = c.a ∧ c.U = []) ∨ x = c.b

/-- Every page below the root has a neighbour under the same parent: the left one, or the
right one of a first child. -/
theorem Up.siblings {s : IxIndexHandle K} {l m : List Int} {x : Int} {ls : List (List Int)}
    (h : Up s (view s l) (m :: ls)) (hx : x ∈ l) (ha : Alloc s (l ++ (m :: ls).flatten))
    (ho : 2 < s.btreeOrder) : ∃ c : Siblings s, c.level = l ∧ c.upper = m ∧ c.Of x := by
  obtain ⟨A, B, rfl⟩ := List.append_of_mem hx
  have hup : Up s (view s A ++ (firstKey s x, childRid x) :: view s B) (m :: ls) := by
    simpa using h
  obtain ⟨M1, q, M2, U, V, pgq, rfl, hA, hB, hpgq, hslots, hleaf, hpar, -, -, -⟩ :=
    hup.cursor (by simpa [childRid] using ha)
  have hsz := (hup.2.1 q (by simp)).2.1
  have htwo : 2 ≤ pgq.slots.length := by
    rw [slotsAt_eq hpgq] at hsz
    refine Nat.le_trans ?_ hsz
    simp only [lowest, getMinSize, getMaxSize]
    split <;> omega
  rcases List.eq_nil_or_concat U with rfl | ⟨U', e, rfl⟩
  · -- `x` is the first child of `q`: its neighbour is the next entry
    cases V with
    | nil => simp [hslots] at htwo
    | cons e V =>
        cases B with
        | nil => simp at hB
        | cons y B =>
            obtain ⟨rfl, hB'⟩ : (firstKey s y, childRid y) = e ∧ view s B = V ++ cat s M2 := by
              simpa using hB
            exact ⟨⟨A, B, M1, M2, x, y, q, [], V, pgq, hA, hB', hpgq, hslots, hleaf⟩, rfl, rfl, hpar,
              Or.inl ⟨rfl, rfl⟩⟩
  · rcases List.eq_nil_or_concat A with rfl | ⟨A', y, rfl⟩
    · simp at hA
    · rw [List.concat_eq_append] at hA hslots
      rw [List.concat_eq_append, view_append, ← List.append_assoc] at hA
      obtain ⟨hA', he⟩ := List.append_inj' hA rfl
      obtain rfl : (firstKey s y, childRid y) = e := by simpa using he
      exact ⟨⟨A', B, M1, M2, y, x, q, U', V, pgq, hA', hB, hpgq, by simpa using hslots, hleaf⟩,
        by simp [Siblings.level], rfl, hpar, Or.inr rfl⟩

/-! ## Moving one entry -/

/-- The children of a page that count for the frame: none for a leaf. -/
def kidsOf (pg : IxPage K) (es : List (K × Rid)) : List Int :=
  if pg.isLeaf then [] else pagesOf es

/-- `s'` comes from `s` by moving entries between the two pages: `SA` and `SB` are their
new contents, the key of `b` in `q` is its new first key. -/
structure Redistributed (s s' : IxIndexHandle K) (c : Siblings s) (pga pgb : IxPage K) (SA SB : List (K × Rid)) : Prop where
  pageA : s'.pages c.a = some { pga with slots := SA }
  pageB : s'.pages c.b = some { pgb with slots := SB }
  pageQ : s'.pages c.q = some { c.pgq with slots := c.U ++ (firstKey s c.a, childRid c.a) ::
    ((SB.getD 0 default).1, childRid c.b) :: c.V }
  root : s'.rootPage = s.rootPage
  frame : Frame s s' [c.a, c.b, c.q] (kidsOf pga (SA ++ SB))
  kids : pga.isLeaf = false →
    (∀ k ∈ pagesOf SA, parentAt s' k = c.a) ∧ ∀ k ∈ pagesOf SB, parentAt s' k = c.b
  append : SA ++ SB = pga.slots ++ pgb.slots
  head : SA.getD 0 default = pga.slots.getD 0 default
  sizedA : s.getMinSize ≤ SA.length ∧ SA.length < s.getMaxSize
  sizedB : s.getMinSize ≤ SB.length ∧ SB.length < s.getMaxSize

omit [Inhabited K] in
theorem frame_reparent {s : IxIndexHandle K} {q : Int} {kids : List Int} :
    Frame s (reparent s q kids) [] kids where
  fixed := rfl
  counted := id
  grows := Int.le_refl _
  isSome := fun p hp => by
    simp only [reparent_pages]
    split
    · simpa using hp
    · exact hp
  core := fun p _ _ => by
    simp only [coreAt, reparent_pages]
    split
    · simp [IxPage.setParentPageNo, Function.comp_def]
    · rfl
  same := fun p _ _ hp => by simp [hp]

/-- `maintain_child` after an entry has moved to page `p`, which was `pg0` before. -/
theorem maintainChild_moved {s : IxIndexHandle K} {p : Int} {pg0 pg : IxPage K} {i : Nat}
    {e : K × Rid} (hp : s.pages p = some pg) (hleaf : pg.isLeaf = pg0.isLeaf)
    (hi : pg.getRid i = e.2)
    (hk : pg0.isLeaf = false → 0 ≤ e.2.pageNo ∧ e.2.pageNo < s.numPages ∧
      (s.pages e.2.pageNo).isSome) :
    (if ¬ pg0.isLeaf then s.maintainChild p i else some s) =
      some (reparent s p (kidsOf pg0 [e])) := by
  by_cases hl : pg0.isLeaf = true
  · rw [if_neg (by simp [hl])]
    simp [kidsOf, hl, reparent_nil]
  · have hl' : pg0.isLeaf = false := by simpa using hl
    obtain ⟨h0, h1, hs⟩ := hk hl'
    rw [if_pos hl, maintainChild_eq hp (hleaf.trans hl') (by simp [IxPage.valueAt, hi]) h0 h1 hs]
    simp [kidsOf, hl', pagesOf]

/-- The state after entry `e` has moved to page `y` of the pair. -/
def moved (s : IxIndexHandle K) (c : Siblings s) (pga pgb : IxPage K) (SA SB : List (K × Rid)) (e : K × Rid) (y : Int) : IxIndexHandle K :=
  { s with pages := fun p =>
      if p = c.q then some { c.pgq with slots := c.U ++ (firstKey s c.a, childRid c.a) ::
        ((SB.getD 0 default).1, childRid c.b) :: c.V }
      else if p = c.a then some { pga with slots := SA }
      else if p = c.b then some { pgb with slots := SB }
      else if p ∈ kidsOf pga [e] then (s.pages p).map fun pg => pg.setParentPageNo y
      else s.pages p }

section
variable {s : IxIndexHandle K} (c : Siblings s)
  {pga pgb : IxPage K} (ha : s.pages c.a = some pga) (hb : s.pages c.b = some pgb)
  (hleaf : pgb.isLeaf = pga.isLeaf)
  (hal : Alloc s (kidsOf pga (pga.slots ++ pgb.slots) ++ [c.a, c.b, c.q]))

omit [Inhabited K] in
theorem mem_kidsOf {pg : IxPage K} {es : List (K × Rid)} {k : Int} :
    k ∈ kidsOf pg es ↔ pg.isLeaf = false ∧ k ∈ pagesOf es := by
  simp only [kidsOf]
  cases pg.isLeaf <;> simp

include hal in
theorem Siblings.apart : c.a ≠ c.b ∧ c.a ≠ c.q ∧ c.b ≠ c.q ∧
    ∀ k ∈ kidsOf pga (pga.slots ++ pgb.slots), k ≠ c.a ∧ k ≠ c.b ∧ k ≠ c.q := by
  have hnd := hal.nodup
  simp only [List.nodup_append, List.nodup_cons, List.mem_cons, List.not_mem_nil, or_false] at hnd
  refine ⟨?_, ?_, ?_, fun k hk => ⟨?_, ?_, ?_⟩⟩ <;> grind

include hal in
theorem Siblings.moved_kid {e : K × Rid} (he : e ∈ pga.slots ++ pgb.slots)
    (hl : pga.isLeaf = false) : 0 ≤ e.2.pageNo ∧ e.2.pageNo < s.numPages ∧
      (s.pages e.2.pageNo).isSome ∧ e.2.pageNo ≠ c.a ∧ e.2.pageNo ≠ c.b ∧ e.2.pageNo ≠ c.q := by
  have hmem : e.2.pageNo ∈ kidsOf pga (pga.slots ++ pgb.slots) :=
    mem_kidsOf.2 ⟨hl, List.mem_map.2 ⟨e, he, rfl⟩⟩
  have hr := hal.range _ (List.mem_append_left _ hmem)
  have hc := hal.counted
  exact ⟨by omega, by omega, hal.isSome _ (List.mem_append_left _ hmem),
    (c.apart hal).2.2.2 _ hmem⟩

include ha hb hal in
theorem redistribute_left {e : K × Rid} {rest : List (K × Rid)} (hU : c.U = [])
    (hpb : pgb.slots = e :: rest) :
    s.redistribute c.b c.a c.q 0 = some (moved s c pga pgb (pga.slots ++ [e]) rest e c.a) := by
  obtain ⟨hab, haq, hbq, -⟩ := c.apart hal
  have he : e ∈ pga.slots ++ pgb.slots := by simp [hpb]
  have hkids : ∀ k ∈ kidsOf pga [e], k ≠ c.a ∧ k ≠ c.b ∧ k ≠ c.q := by
    intro k hk
    obtain ⟨hl, hk⟩ := mem_kidsOf.1 hk
    obtain rfl : k = e.2.pageNo := by simpa [pagesOf] using hk
    exact (c.moved_kid hal he hl).2.2.2
  have hins : pga.insertPair pga.getSize (pgb.getKey 0) (pgb.getRid 0) =
      { pga with slots := pga.slots ++ [e] } := by
    simp [IxPage.insertPair, IxPage.insertPairs, IxPage.getSize, IxPage.getKey, IxPage.getRid, hpb]
  obtain ⟨s1, hs1⟩ : ∃ s1, s1 = s.setNode c.a { pga with slots := pga.slots ++ [e] } := ⟨_, rfl⟩
  have hchild : (if ¬ pga.isLeaf then s1.maintainChild c.a pga.getSize else some s1) =
      some (reparent s1 c.a (kidsOf pga [e])) := by
    have hp1 : s1.pages c.a = some { pga with slots := pga.slots ++ [e] } := by simp [hs1]
    refine maintainChild_moved hp1 rfl (by simp [IxPage.getRid, IxPage.getSize]) fun hl => ?_
    obtain ⟨h0, h1, hsome, hne, -⟩ := c.moved_kid hal he hl
    exact ⟨h0, by simpa [hs1] using h1, by simpa [hs1, hne] using hsome⟩
  have hq : ((reparent s1 c.a (kidsOf pga [e])).setNode c.b (pgb.erasePair 0)).pages c.q =
      some c.pgq := by
    have : c.q ∉ kidsOf pga [e] := fun h => (hkids _ h).2.2 rfl
    simp [hs1, hbq.symm, haq.symm, this, c.page]
  simp only [redistribute, hb, ha, Option.bind_eq_bind, Option.bind_some, if_true, hins, ← hs1,
    hchild, hq]
  have herase : pgb.erasePair 0 = { pgb with slots := rest } := by simp [IxPage.erasePair, hpb]
  have hset : c.pgq.setKey 1 ((pgb.erasePair 0).getKey 0) = { c.pgq with slots := c.U ++
      (firstKey s c.a, childRid c.a) :: ((rest.getD 0 default).1, childRid c.b) :: c.V } := by
    rw [herase]
    simp [IxPage.setKey, IxPage.getKey, c.slots, hU]
  rw [hset, herase]
  congr 1
  simp only [moved, setNode, reparent, hs1]
  congr 1
  funext p
  by_cases h1 : p = c.q
  · simp [h1]
  · by_cases h2 : p = c.a
    · have : c.a ∉ kidsOf pga [e] := fun h => (hkids _ h).1 rfl
      simp [h2, hab, this]
    · simp [h1, h2]

include ha hb hal in
theorem redistribute_right {e : K × Rid} {rest : List (K × Rid)} (hleaf : pgb.isLeaf = pga.isLeaf)
    (hpa : pga.slots = rest ++ [e]) :
    s.redistribute c.a c.b c.q (c.U.length + 1) =
      some (moved s c pga pgb rest (e :: pgb.slots) e c.b) := by
  obtain ⟨hab, haq, hbq, -⟩ := c.apart hal
  have he : e ∈ pga.slots ++ pgb.slots := by simp [hpa]
  have hkids : ∀ k ∈ kidsOf pga [e], k ≠ c.a ∧ k ≠ c.b ∧ k ≠ c.q := by
    intro k hk
    obtain ⟨hl, hk⟩ := mem_kidsOf.1 hk
    obtain rfl : k = e.2.pageNo := by simpa [pagesOf] using hk
    exact (c.moved_kid hal he hl).2.2.2
  have hlast : pga.getKey (pga.getSize - 1) = e.1 ∧ pga.getRid (pga.getSize - 1) = e.2 := by
    simp [IxPage.getSize, IxPage.getKey, IxPage.getRid, hpa]
  have hins : pgb.insertPair 0 e.1 e.2 = { pgb with slots := e :: pgb.slots } := by
    simp [IxPage.insertPair, IxPage.insertPairs]
  obtain ⟨s1, hs1⟩ : ∃ s1, s1 = s.setNode c.b { pgb with slots := e :: pgb.slots } := ⟨_, rfl⟩
  have hchild : (if ¬ pgb.isLeaf then s1.maintainChild c.b 0 else some s1) =
      some (reparent s1 c.b (kidsOf pga [e])) := by
    rw [hleaf]
    have hp1 : s1.pages c.b = some { pgb with slots := e :: pgb.slots } := by simp [hs1]
    refine maintainChild_moved hp1 hleaf (by simp [IxPage.getRid]) fun hl => ?_
    obtain ⟨h0, h1, hsome, -, hne, -⟩ := c.moved_kid hal he hl
    exact ⟨h0, by simpa [hs1] using h1, by simpa [hs1, hne] using hsome⟩
  have hq : ((reparent s1 c.b (kidsOf pga [e])).setNode c.a
      (pga.erasePair (pga.getSize - 1))).pages c.q = some c.pgq := by
    have : c.q ∉ kidsOf pga [e] := fun h => (hkids _ h).2.2 rfl
    simp [hs1, hbq.symm, haq.symm, this, c.page]
  have hne : ¬ c.U.length + 1 = 0 := by omega
  simp only [redistribute, hb, ha, Option.bind_eq_bind, Option.bind_some, if_neg hne, hlast.1,
    hlast.2, hins, ← hs1, hchild, hq]
  have herase : pga.erasePair (pga.getSize - 1) = { pga with slots := rest } := by
    simp [IxPage.erasePair, IxPage.getSize, hpa, List.eraseIdx_append_of_length_le]
  have hset : c.pgq.setKey (c.U.length + 1) e.1 = { c.pgq with slots := c.U ++
      (firstKey s c.a, childRid c.a) :: (((e :: pgb.slots).getD 0 default).1, childRid c.b) ::
        c.V } := by
    have hsl : c.pgq.slots = (c.U ++ [(firstKey s c.a, childRid c.a)]) ++
        (firstKey s c.b, childRid c.b) :: c.V := by simp [c.slots]
    have := setKey_eq hsl e.1
    simpa using this
  rw [hset, herase]
  congr 1
  simp only [moved, setNode, reparent, hs1]
  congr 1
  funext p
  by_cases h1 : p = c.q
  · simp [h1]
  · by_cases h2 : p = c.b
    · have : c.b ∉ kidsOf pga [e] := fun h => (hkids _ h).2.1 rfl
      simp [h2, hab.symm, this, hbq]
    · simp [h1, h2]

include hal in
/-- Moving one entry keeps the pair's entries and tells the moved child its new parent. -/
theorem moved_redistributed {e : K × Rid} {SA SB : List (K × Rid)} {y : Int}
    (hkp : pga.isLeaf = false → (∀ k ∈ pagesOf pga.slots, parentAt s k = c.a) ∧
      ∀ k ∈ pagesOf pgb.slots, parentAt s k = c.b)
    (hcat : SA ++ SB = pga.slots ++ pgb.slots) (he : e ∈ pga.slots ++ pgb.slots)
    (hA : pga.isLeaf = false → ∀ k ∈ pagesOf SA, (k = e.2.pageNo ∧ y = c.a) ∨
      (k ≠ e.2.pageNo ∧ k ∈ pagesOf pga.slots))
    (hB : pga.isLeaf = false → ∀ k ∈ pagesOf SB, (k = e.2.pageNo ∧ y = c.b) ∨
      (k ≠ e.2.pageNo ∧ k ∈ pagesOf pgb.slots))
    (hhead : SA.getD 0 default = pga.slots.getD 0 default)
    (hsA : s.getMinSize ≤ SA.length ∧ SA.length < s.getMaxSize)
    (hsB : s.getMinSize ≤ SB.length ∧ SB.length < s.getMaxSize) :
    Redistributed s (moved s c pga pgb SA SB e y) c pga pgb SA SB := by
  obtain ⟨hab, haq, hbq, hkids⟩ := c.apart hal
  have hmem : ∀ k ∈ kidsOf pga [e], k ∈ kidsOf pga (SA ++ SB) := by
    intro k hk
    obtain ⟨hl, hk⟩ := mem_kidsOf.1 hk
    obtain rfl : k = e.2.pageNo := by simpa [pagesOf] using hk
    exact mem_kidsOf.2 ⟨hl, List.mem_map.2 ⟨e, hcat ▸ he, rfl⟩⟩
  -- a child's parent: the receiving page for the moved one, unchanged for the others
  have hparent : ∀ k, pga.isLeaf = false → k ∈ pagesOf (SA ++ SB) →
      parentAt (moved s c pga pgb SA SB e y) k =
        if k = e.2.pageNo then y else parentAt s k := by
    intro k hl hk
    have hk' := hkids k (mem_kidsOf.2 ⟨hl, by rwa [← hcat]⟩)
    obtain ⟨pg, hpg⟩ := Option.isSome_iff_exists.1 (hal.isSome k
      (List.mem_append_left _ (mem_kidsOf.2 ⟨hl, by rwa [← hcat]⟩)))
    simp only [parentAt, moved, if_neg hk'.2.2, if_neg hk'.1, if_neg hk'.2.1, mem_kidsOf, hl,
      pagesOf, hpg, List.map_cons, List.map_nil, List.mem_singleton, true_and]
    split <;> simp [IxPage.setParentPageNo]
  refine ⟨?_, ?_, ?_, rfl, ⟨rfl, id, Int.le_refl _, fun p hp => ?_, fun p _ hp => ?_,
    fun p _ hp hk => ?_⟩, fun hl => ⟨fun k hk => ?_, fun k hk => ?_⟩, hcat, hhead, hsA, hsB⟩
  · simp [moved, haq]
  · simp [moved, hab.symm, hbq]
  · simp [moved]
  · simp only [moved]
    split_ifs <;> simp_all
  · simp only [List.mem_cons, List.not_mem_nil, or_false, not_or] at hp
    simp only [coreAt, moved, if_neg hp.1, if_neg hp.2.1, if_neg hp.2.2]
    split
    · simp [IxPage.setParentPageNo, Function.comp_def]
    · rfl
  · simp only [List.mem_cons, List.not_mem_nil, or_false, not_or] at hp
    simp only [moved, if_neg hp.1, if_neg hp.2.1, if_neg hp.2.2]
    rw [if_neg fun h => hk (hmem p h)]
  · rw [hparent k hl (by simp [hk])]
    rcases hA hl k hk with ⟨h, rfl⟩ | ⟨h, hk⟩
    · rw [if_pos h]
    · rw [if_neg h, (hkp hl).1 k hk]
  · rw [hparent k hl (by simp [hk])]
    rcases hB hl k hk with ⟨h, rfl⟩ | ⟨h, hk⟩
    · rw [if_pos h]
    · rw [if_neg h, (hkp hl).2 k hk]

/-- The place of `x` in `q`. -/
def Siblings.idx (x : Int) : Nat := if x = c.a then 0 else c.U.length + 1

/-- The neighbour of `x`. -/
def Siblings.other (x : Int) : Int := if x = c.a then c.b else c.a

include ha hb hal in
theorem redistribute_spec {x : Int} (hx : c.Of x) (hleaf : pgb.isLeaf = pga.isLeaf)
    (hkp : pga.isLeaf = false → (∀ k ∈ pagesOf pga.slots, parentAt s k = c.a) ∧
      ∀ k ∈ pagesOf pgb.slots, parentAt s k = c.b)
    (ho : 2 < s.btreeOrder) (hx1 : s.getMinSize ≤ (slotsAt s x).length + 1)
    (hx2 : (slotsAt s x).length < s.getMinSize)
    (hsa : pga.slots.length < s.getMaxSize) (hsb : pgb.slots.length < s.getMaxSize)
    (htot : 2 * s.getMinSize ≤ pga.slots.length + pgb.slots.length) :
    ∃ s' SA SB, s.redistribute (c.other x) x c.q (c.idx x) = some s' ∧
      Redistributed s s' c pga pgb SA SB := by
  have hnd : pga.isLeaf = false → (pagesOf pga.slots ++ pagesOf pgb.slots).Nodup := by
    intro hl
    have := (List.nodup_append.1 hal.nodup).1
    simpa [kidsOf, hl] using this
  have hmin : s.getMinSize < s.getMaxSize ∧ 2 ≤ s.getMinSize := by
    simp only [getMinSize, getMaxSize]
    omega
  have hab := (c.apart hal).1
  rcases hx.side with ⟨hxa, hU⟩ | hxb
  · rw [hxa, slotsAt_eq ha] at hx1 hx2
    cases hpb : pgb.slots with
    | nil => simp only [hpb, List.length_nil] at htot; omega
    | cons e rest =>
        rw [hpb] at hsb htot
        simp only [List.length_cons] at hsb htot
        refine ⟨moved s c pga pgb (pga.slots ++ [e]) rest e c.a, _, _, ?_,
          moved_redistributed c hal hkp (by simp [hpb]) (by simp [hpb]) (fun hl k hk => ?_)
            (fun hl k hk => ?_) ?_ ?_ ?_⟩
        · simp only [Siblings.other, Siblings.idx, if_pos hxa]
          rw [hxa]
          exact redistribute_left c ha hb hal hU hpb
        · by_cases hke : k = e.2.pageNo
          · exact Or.inl ⟨hke, rfl⟩
          · exact Or.inr ⟨hke, by simpa [pagesOf, hke] using hk⟩
        · have hnd' := hnd hl
          rw [hpb, pagesOf_cons, List.nodup_append, List.nodup_cons] at hnd'
          exact Or.inr ⟨fun h => hnd'.2.1.1 (h ▸ hk), by simp [hpb, hk]⟩
        · cases hpa : pga.slots with
          | nil => simp only [hpa, List.length_nil] at hx1; omega
          | cons e' S => simp
        · simp only [List.length_append, List.length_cons, List.length_nil]
          omega
        · omega
  · have hxa : ¬ x = c.a := fun h => hab (h.symm.trans hxb)
    rw [hxb, slotsAt_eq hb] at hx1 hx2
    rcases List.eq_nil_or_concat pga.slots with hpa | ⟨rest, e, hpa⟩
    · simp only [hpa, List.length_nil] at htot
      omega
    · rw [List.concat_eq_append] at hpa
      rw [hpa] at hsa htot
      simp only [List.length_append, List.length_cons, List.length_nil] at hsa htot
      refine ⟨moved s c pga pgb rest (e :: pgb.slots) e c.b, _, _, ?_,
        moved_redistributed c hal hkp (by simp [hpa]) (by simp [hpa]) (fun hl k hk => ?_)
          (fun hl k hk => ?_) ?_ ?_ ?_⟩
      · simp only [Siblings.other, Siblings.idx, if_neg hxa]
        rw [hxb]
        exact redistribute_right c ha hb hal hleaf hpa
      · have hnd' := hnd hl
        rw [hpa, pagesOf_append, List.nodup_append, List.nodup_append] at hnd'
        refine Or.inr ⟨fun h => ?_, by simp [hpa, hk]⟩
        exact hnd'.1.2.2 k hk e.2.pageNo (by simp [pagesOf]) h
      · by_cases hke : k = e.2.pageNo
        · exact Or.inl ⟨hke, rfl⟩
        · exact Or.inr ⟨hke, by simpa [hke] using hk⟩
      · cases rest with
        | nil => simp only [List.length_nil] at htot; omega
        | cons e' S => simp [hpa]
      · omega
      · simp only [List.length_cons]
        omega

/-! ## Merging -/

include c in
theorem Siblings.left_pages : pagesOf c.U ⊆ c.A := by
  intro k hk
  have : k ∈ pagesOf (view s c.A) := by simp [c.left, hk]
  simpa using this

include ha hb hal in
/-- One round of `coalesce_or_redistribute` at a page below its minimal size. -/
theorem coalesceOrRedistribute_step {x : Int} (hof : c.Of x) {ps : List Int} {fuel : Nat}
    {pgx : IxPage K} (hl : Alloc s (c.level ++ ps)) (hq : s.fetchNode c.q = some c.pgq) (hq' : c.q ≠ ixNoPage)
    (hx : s.pages x = some pgx) (hsz : pgx.slots.length < s.getMinSize) :
    coalesceOrRedistribute (fuel + 1) s x =
      if 2 * s.getMinSize ≤ pga.slots.length + pgb.slots.length then
        (s.redistribute (c.other x) x c.q (c.idx x)).bind fun s => some (s, false)
      else (s.coalesce (c.other x) x c.q (c.idx x)).bind fun s =>
        (coalesceOrRedistribute fuel s c.q).bind fun r => some (r.1, decide (c.idx x ≠ 0)) := by
  have hab := (c.apart hal).1
  have hpar : pgx.parent = c.q := by rw [← parentAt_eq hx, hof.parent]
  have hsz' : ¬ pgx.getSize ≥ s.getMinSize := by simp only [IxPage.getSize]; omega
  have hfa : s.fetchNode c.a = some pga := by rw [hal.fetchNode (by simp), ha]
  have hfb : s.fetchNode c.b = some pgb := by rw [hal.fetchNode (by simp), hb]
  have hfind : c.pgq.findChild x = some (c.idx x) ∧
      c.pgq.valueAt (if c.idx x = 0 then 1 else c.idx x - 1) = c.other x ∧
      ∃ pgy, s.fetchNode (c.other x) = some pgy ∧
        pgx.slots.length + pgy.slots.length = pga.slots.length + pgb.slots.length := by
    rcases hof.side with ⟨hxa, hU⟩ | hxb
    · have hxp : pgx = pga := by
        have : s.pages x = some pga := by rw [hxa]; exact ha
        simpa [hx] using this
      have hi : c.idx x = 0 := if_pos hxa
      have hy : c.other x = c.b := if_pos hxa
      refine ⟨?_, ?_, pgb, by rw [hy, hfb], by rw [hxp]⟩
      · rw [hi, hxa]
        exact findChild_eq (U := []) (by rw [c.slots, hU]) (by simp [pagesOf])
      · simp [hi, hy, IxPage.valueAt, IxPage.getRid, c.slots, hU, childRid]
    · have hxa : ¬ x = c.a := fun h => hab (h.symm.trans hxb)
      have hxp : pgx = pgb := by
        have : s.pages x = some pgb := by rw [hxb]; exact hb
        simpa [hx] using this
      have hi : c.idx x = c.U.length + 1 := if_neg hxa
      have hy : c.other x = c.a := if_neg hxa
      refine ⟨?_, ?_, pga, by rw [hy, hfa], by rw [hxp]; omega⟩
      · rw [hi, hxb]
        have hnd := (List.nodup_append.1 hl.nodup).1
        rw [Siblings.level, List.nodup_append] at hnd
        have hfound : c.pgq.findChild c.b =
            some (c.U ++ [(firstKey s c.a, childRid c.a)]).length := by
          refine findChild_eq (k := firstKey s c.b) (V := c.V) (by simp [c.slots]) ?_
          simp only [pagesOf_append, pagesOf_cons, childRid, List.mem_append, List.mem_cons, not_or]
          exact ⟨fun h => hnd.2.2 c.b (c.left_pages h) c.b (by simp) rfl, hab.symm, by simp [pagesOf]⟩
        simpa using hfound
      · simp [hi, hy, IxPage.valueAt, IxPage.getRid, c.slots, childRid]
  obtain ⟨hfind, hval, pgy, hfy, hlen⟩ := hfind
  simp only [coalesceOrRedistribute, hx, Option.bind_eq_bind, Option.bind_some, hpar, if_neg hq',
    if_neg hsz', hq, hfind, hval, hfy]
  simp only [IxPage.getSize, hlen, ge_iff_le]

/-- `s'` comes from `s` by appending `b` to `a` and dropping `b` from `q`. -/
structure Merged (s s' : IxIndexHandle K) (c : Siblings s) (pga pgb : IxPage K) : Prop where
  pageA : ∃ pg, s'.pages c.a = some pg ∧ pg.slots = pga.slots ++ pgb.slots ∧
    pg.isLeaf = pga.isLeaf ∧ pg.parent = pga.parent
  pageQ : s'.pages c.q = some { c.pgq with slots := c.U ++ (firstKey s c.a, childRid c.a) :: c.V }
  root : s'.rootPage = s.rootPage

/-- Which of the pair is `node` does not matter to `coalesce`. -/
theorem coalesce_sides {x : Int} (hx : c.Of x) (hab : c.a ≠ c.b) :
    s.coalesce (c.other x) x c.q (c.idx x) = s.coalesce c.a c.b c.q (c.U.length + 1) := by
  rcases hx.side with ⟨hxa, hU⟩ | hxb
  · simp only [Siblings.other, Siblings.idx, if_pos hxa, hU, List.length_nil]
    rw [hxa]
    rfl
  · have hxa : ¬ x = c.a := fun h => hab (h.symm.trans hxb)
    simp only [Siblings.other, Siblings.idx, if_neg hxa]
    rw [hxb]

theorem Siblings.erase : c.pgq.erasePair (c.U.length + 1) =
    { c.pgq with slots := c.U ++ (firstKey s c.a, childRid c.a) :: c.V } := by
  simp [IxPage.erasePair, c.slots, List.eraseIdx_append_of_length_le]

include ha hb hal in
theorem coalesce_inner_spec {x : Int} (hx : c.Of x) (hla : pga.isLeaf = false) (hlb : pgb.isLeaf = false) :
    ∃ s', s.coalesce (c.other x) x c.q (c.idx x) = some s' ∧ Merged s s' c pga pgb ∧
      Frame s s' [c.a, c.q] (pagesOf pgb.slots) ∧
      ∀ k ∈ pagesOf pgb.slots, parentAt s' k = c.a := by
  obtain ⟨hab, haq, hbq, hkids⟩ := c.apart hal
  have hkid : ∀ k ∈ pagesOf (pga.slots ++ pgb.slots),
      k ∈ kidsOf pga (pga.slots ++ pgb.slots) := fun k hk => mem_kidsOf.2 ⟨hla, hk⟩
  have hkid' : ∀ k ∈ pagesOf pgb.slots, k ≠ c.a ∧ k ≠ c.q := fun k hk =>
    have h := hkids k (hkid k (by simp [hk]))
    ⟨h.1, h.2.2⟩
  have hins : pga.insertPairs pga.getSize pgb.slots =
      { pga with slots := pga.slots ++ pgb.slots } := by
    simp [IxPage.insertPairs, IxPage.getSize]
  obtain ⟨s1, hs1⟩ : ∃ s1, s1 = s.setNode c.a { pga with slots := pga.slots ++ pgb.slots } :=
    ⟨_, rfl⟩
  have hloop : s1.maintainChildren c.a pga.getSize pgb.getSize =
      some (reparent s1 c.a (pagesOf pgb.slots)) := by
    have hp1 : s1.pages c.a = some { pga with slots := pga.slots ++ pgb.slots } := by simp [hs1]
    rw [maintainChildren_eq hp1 hla (by simp [IxPage.getSize]) fun k hk => ?_]
    · simp [IxPage.getSize]
    · have hr := hal.range k (List.mem_append_left _ (hkid k hk))
      have hc := hal.counted
      have hne := hkids k (hkid k hk)
      refine ⟨hne.1, by omega, by simp only [hs1, setNode_numPages]; omega, ?_⟩
      simpa [hs1, hne.1] using hal.isSome k (List.mem_append_left _ (hkid k hk))
  have hak : c.a ∉ pagesOf pgb.slots := fun h => (hkid' _ h).1 rfl
  have hqk : c.q ∉ pagesOf pgb.slots := fun h => (hkid' _ h).2 rfl
  have hq : (reparent s1 c.a (pagesOf pgb.slots)).pages c.q = some c.pgq := by
    simp [hs1, haq.symm, hqk, c.page]
  refine ⟨(reparent s1 c.a (pagesOf pgb.slots)).setNode c.q (c.pgq.erasePair (c.U.length + 1)),
    ?_, ⟨⟨{ pga with slots := pga.slots ++ pgb.slots }, by simp [haq, hak, hs1], rfl, rfl, rfl⟩,
      by rw [c.erase]; simp, by rw [hs1]; rfl⟩, ?_, fun k hk => ?_⟩
  · rw [coalesce_sides c hx hab]
    have hne : ¬ c.U.length + 1 = 0 := by omega
    simp only [coalesce, if_neg hne, ha, hb, Option.bind_eq_bind, Option.bind_some, hins, ← hs1]
    rw [if_pos (by simp [hla]), hloop, Option.bind_some, if_neg (by simp [hlb]), Option.bind_some, hq,
      Option.bind_some]
  · have h1 : Frame s s1 [c.a] [] := hs1 ▸ frame_setNode _ _ _
    refine (h1.trans frame_reparent (fun p _ h => ?_) (by simp) (by simp)
      (fun p _ h => Or.inr h)).trans (frame_setNode _ c.q _) (fun p _ h => h) (fun p _ h => ?_)
      (fun p _ h => Or.inr h) (by simp)
    · simp_all
    · simp_all
  · obtain ⟨pg, hpg⟩ := Option.isSome_iff_exists.1 (hal.isSome k
      (List.mem_append_left _ (hkid k (by simp [hk]))))
    have : ((reparent s1 c.a (pagesOf pgb.slots)).setNode c.q
        (c.pgq.erasePair (c.U.length + 1))).pages k = some (pg.setParentPageNo c.a) := by
      simp [(hkid' k hk).2, hk, hs1, (hkid' k hk).1, hpg]
    rw [parentAt_eq this]
    rfl

end

end

end Rmdb.Index
