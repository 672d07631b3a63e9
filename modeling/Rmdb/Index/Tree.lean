import Rmdb.Index.Balance

/-!
# The tree invariant, and searching

`Tree s l ls`: the leaves `l` from left to right hold the entries of the index in key order
and form the ring through the leaf header page, `ls` are the levels above them.  A search
ends at the leaf whose key range contains the key (`findLeafPage_spec`), so `get_value`
reads the entries as an association list (`getValue_eq`).
-/

namespace Rmdb.Index

open IxIndexHandle

section
variable {K : Type}

def nextAt (s : IxIndexHandle K) (p : Int) : Int := ((s.pages p).map IxPage.nextLeaf).getD 0
def prevAt (s : IxIndexHandle K) (p : Int) : Int := ((s.pages p).map IxPage.prevLeaf).getD 0

theorem nextAt_eq {s : IxIndexHandle K} {p : Int} {pg : IxPage K} (h : s.pages p = some pg) :
    nextAt s p = pg.nextLeaf := by simp [nextAt, h]

theorem prevAt_eq {s : IxIndexHandle K} {p : Int} {pg : IxPage K} (h : s.pages p = some pg) :
    prevAt s p = pg.prevLeaf := by simp [prevAt, h]

theorem links_of_core {s s' : IxIndexHandle K} {p : Int} (h : coreAt s' p = coreAt s p) :
    nextAt s' p = nextAt s p ∧ prevAt s' p = prevAt s p := by
  simp only [coreAt, nextAt, prevAt] at h ⊢
  cases h1 : s.pages p <;> cases h2 : s'.pages p <;> simp_all [IxPage.setParentPageNo]

/-- From `a` over the pages `l` to `z`, linked in both directions. -/
def Links (s : IxIndexHandle K) : Int → List Int → Int → Prop
  | a, [], z => nextAt s a = z ∧ prevAt s z = a
  | a, b :: l, z => (nextAt s a = b ∧ prevAt s b = a) ∧ Links s b l z

theorem links_append {s : IxIndexHandle K} {b z : Int} {B : List Int} :
    ∀ {a : Int} {A : List Int}, Links s a (A ++ b :: B) z ↔ Links s a A b ∧ Links s b B z
  | _, [] => Iff.rfl
  | _, c :: A => by
      simp only [List.cons_append, Links, links_append (A := A), and_assoc]

theorem Links.congr {s s' : IxIndexHandle K} {z : Int} :
    ∀ {a : Int} {l : List Int}, Links s a l z → (∀ p ∈ a :: l, nextAt s' p = nextAt s p) →
      (∀ p ∈ l ++ [z], prevAt s' p = prevAt s p) → Links s' a l z
  | a, [], h, hn, hp => by
      simp only [Links] at h ⊢
      rwa [hn a (by simp), hp z (by simp)]
  | a, b :: l, h, hn, hp => by
      obtain ⟨hab, hl⟩ := h
      refine ⟨?_, hl.congr (fun p hm => hn p (by simp_all)) fun p hm => hp p (by simp_all)⟩
      rwa [hn a (by simp), hp b (by simp)]

/-- The first page after `a`, and the last one before `z`. -/
theorem Links.next {s : IxIndexHandle K} {a z : Int} {l : List Int} (h : Links s a l z) :
    nextAt s a = (l ++ [z]).head (by simp) := by
  cases l with
  | nil => exact h.1
  | cons b l => exact h.1.1

variable [LinearOrder K]

/-- The leaf level. -/
structure Leaves (s : IxIndexHandle K) (l : List Int) : Prop where
  leaf : ∀ p ∈ l, ∃ pg, s.pages p = some pg ∧ pg.isLeaf = true
  sorted : Increasing (cat s l)
  header : (s.pages ixLeafHeaderPage).isSome
  ring : Links s ixLeafHeaderPage l ixLeafHeaderPage
  first : l.head? = some s.firstLeaf
  last : l.getLast? = some s.lastLeaf

variable [Inhabited K]

/-- The representation invariant of an index. -/
structure Tree (s : IxIndexHandle K) (l : List Int) (ls : List (List Int)) : Prop where
  order : 2 < s.btreeOrder
  leaves : Leaves s l
  sized : ∀ p ∈ l, Sized s (if ls = [] then 0 else s.getMinSize) p
  up : Up s (view s l) ls
  alloc : Alloc s (l ++ ls.flatten)
  pinned : ∀ p, s.pinnedLeafPage = some p → p = s.pinnedLeafNo

end

/-! ## The number of rounds -/

section
variable {K : Type} [Inhabited K]

theorem Up.length_le {s : IxIndexHandle K} : ∀ {ls : List (List Int)} {ks : List (K × Rid)},
    Up s ks ls → ks ≠ [] → ls.length ≤ ls.flatten.length := by
  intro ls
  induction ls with
  | nil => intros; simp
  | cons m ls ih =>
      rintro ks ⟨hcat, -, hup⟩ hne
      have hm : m ≠ [] := by
        rintro rfl
        exact hne hcat.symm
      have hpos := List.length_pos_iff.2 hm
      have := ih hup (by simpa [view] using hm)
      simp only [List.length_cons, List.flatten_cons, List.length_append]
      omega

omit [Inhabited K] in
/-- Distinct pages below `numPages` are fewer than `numPages`. -/
theorem Alloc.length_le {s : IxIndexHandle K} {ps : List Int} (h : Alloc s ps) (hne : ps ≠ []) :
    ps.length + 2 ≤ s.rounds := by
  have hsub : ps.toFinset ⊆ Finset.Ico 2 s.numPages := by
    intro p hp
    rw [List.mem_toFinset] at hp
    have := h.range p hp
    have := h.counted
    rw [Finset.mem_Ico]
    omega
  have hcard := Finset.card_le_card hsub
  rw [List.toFinset_card_of_nodup h.nodup, Int.card_Ico] at hcard
  obtain ⟨p, hp⟩ := List.exists_mem_of_ne_nil ps hne
  have := h.range p hp
  have := h.counted
  simp only [rounds]
  omega

/-- The levels are fewer than the rounds the handle allows. -/
theorem Up.length_lt {s : IxIndexHandle K} {l : List Int} {ls : List (List Int)}
    (h : Up s (view s l) ls) (hl : l ≠ []) (ha : Alloc s (l ++ ls.flatten)) :
    ls.length < s.rounds := by
  have h1 := h.length_le (by simpa [view] using hl)
  have h2 := ha.length_le (by simp [hl])
  rw [List.length_append] at h2
  omega

end

/-! ## Searching -/

section
variable {K : Type} [LinearOrder K] [Inhabited K]

omit [LinearOrder K] in
theorem firstKey_mem {s : IxIndexHandle K} {p : Int} (h : slotsAt s p ≠ []) :
    ∃ r, (firstKey s p, r) ∈ slotsAt s p := by
  simp only [firstKey]
  cases hs : slotsAt s p with
  | nil => exact absurd hs h
  | cons e l => exact ⟨e.2, by simp⟩

theorem firstKey_le {s : IxIndexHandle K} {p : Int} (h : Increasing (slotsAt s p)) {e : K × Rid}
    (he : e ∈ slotsAt s p) : firstKey s p ≤ e.1 := by
  simp only [firstKey]
  cases hs : slotsAt s p with
  | nil => simp [hs] at he
  | cons d l =>
      rw [hs] at h he
      rcases List.mem_cons.1 he with rfl | he
      · exact le_refl _
      · exact le_of_lt ((increasing_cons.1 h).1 e he)

omit [Inhabited K] in
theorem Increasing.slotsAt {s : IxIndexHandle K} {l : List Int} (h : Increasing (cat s l))
    {p : Int} (hp : p ∈ l) : Increasing (Index.slotsAt s p) := by
  obtain ⟨A, B, rfl⟩ := List.append_of_mem hp
  rw [cat_append, cat_cons] at h
  exact (increasing_append.1 (increasing_append.1 h).2.1).1

/-- First keys of nonempty pages in order are in order. -/
theorem increasing_view {s : IxIndexHandle K} {l : List Int} (h : Increasing (cat s l))
    (hne : ∀ p ∈ l, slotsAt s p ≠ []) : Increasing (view s l) := by
  induction l with
  | nil => exact List.Pairwise.nil
  | cons p l ih =>
      obtain ⟨hp, hl, hlt⟩ := increasing_append.1 h
      refine increasing_cons.2 ⟨fun e he => ?_, ih hl fun q hq => hne q (by simp [hq])⟩
      obtain ⟨q, hq, rfl⟩ := List.mem_map.1 he
      obtain ⟨r, hr⟩ := firstKey_mem (hne p (by simp))
      obtain ⟨r', hr'⟩ := firstKey_mem (hne q (by simp [hq]))
      have := hlt _ hr _ (mem_cat.2 ⟨q, hq, hr'⟩)
      exact this

/-- `p` is the page of `ks` that the search for `k` takes. -/
def Routes (ks : List (K × Rid)) (k : K) (p : Int) : Prop :=
  ∃ KA kp KB, ks = KA ++ (kp, childRid p) :: KB ∧ (KA = [] ∨ kp ≤ k) ∧ ∀ e ∈ KB, k < e.1

/-- The search takes one level per round, always along `Routes`. -/
theorem findLeafPage_descend {s : IxIndexHandle K} (ho : 2 < s.btreeOrder) (k : K) :
    ∀ (ls : List (List Int)) (ks : List (K × Rid)) (fuel : Nat), Up s ks ls → Increasing ks →
      (∀ e ∈ ks, e.2 = childRid e.2.pageNo) → Alloc s ls.flatten →
      ∃ p, Routes ks k p ∧ findLeafPage false (fuel + ls.length) s k s.rootPage =
        findLeafPage false fuel s k p := by
  intro ls
  induction ls with
  | nil =>
      rintro ks fuel ⟨k', rfl, -⟩ - - -
      exact ⟨s.rootPage, ⟨[], k', [], rfl, Or.inl rfl, by simp⟩, rfl⟩
  | cons m ls ih =>
      rintro ks fuel ⟨rfl, hm, hup⟩ hinc hrid ha
      have hne : ∀ q ∈ m, slotsAt s q ≠ [] := by
        intro q hq hnil
        have hlo := (hm q hq).2.1
        have : 2 ≤ lowest s ls := by
          simp only [lowest, getMinSize, getMaxSize]
          split <;> omega
        rw [hnil] at hlo
        simp only [List.length_nil] at hlo
        omega
      obtain ⟨q, ⟨QA, kq, QB, hview, hQA, hQB⟩, hrun⟩ := ih (view s m) (fuel + 1) hup
        (increasing_view hinc hne) (fun e he => by obtain ⟨p, -, rfl⟩ := List.mem_map.1 he; rfl)
        (ha.sublist (by simp))
      obtain ⟨M1, M', rfl, hM1, hM'⟩ := List.map_eq_append_iff.1 hview
      obtain ⟨q', M2, rfl, hq', hM2⟩ := List.map_eq_cons_iff.1 hM'
      obtain ⟨rfl, rfl⟩ : firstKey s q' = kq ∧ q' = q := by
        simpa [childRid] using hq'
      obtain ⟨⟨pg, hpg, hleaf⟩, -⟩ := (hm q' (by simp)).1
      have hqinc : Increasing pg.slots := by
        rw [← slotsAt_eq hpg]
        exact hinc.slotsAt (by simp)
      obtain ⟨U, e, V, hsl, hlook, hU, hV⟩ := internalLookup_cut pg k hqinc (by
        rw [← slotsAt_eq hpg]
        exact hne q' (by simp))
      have he : e.2 = childRid e.2.pageNo := hrid e (by simp [slotsAt_eq hpg, hsl])
      refine ⟨e.2.pageNo, ⟨cat s M1 ++ U, e.1, V ++ cat s M2, ?_, ?_, ?_⟩, ?_⟩
      · rw [← he]
        simp [slotsAt_eq hpg, hsl]
      · rcases hU with rfl | hU
        · rcases hQA with hQA | hQA
          · left
            rw [← hM1] at hQA
            simp [List.map_eq_nil_iff.1 hQA]
          · right
            have : firstKey s q' = e.1 := by simp [firstKey_eq hpg, IxPage.getKey, hsl]
            rwa [← this]
        · exact Or.inr hU
      · intro d hd
        rcases List.mem_append.1 hd with hd | hd
        · exact hV d hd
        · obtain ⟨p, hp, hd⟩ := mem_cat.1 hd
          refine lt_of_lt_of_le (hQB (firstKey s p, childRid p) ?_) (firstKey_le (hinc.slotsAt (by
            simp [hp])) hd)
          rw [← hM2]
          exact List.mem_map.2 ⟨p, hp, rfl⟩
      · rw [List.length_cons, ← Nat.add_assoc, Nat.add_right_comm, hrun]
        have hfetch : s.fetchNode q' = some pg := by rw [ha.fetchNode (by simp), hpg]
        simp [findLeafPage, hfetch, hleaf, hlook]

/-- `x` is the leaf of key `k`: the entries left of it are smaller, those right of it greater. -/
structure LeafFor (s : IxIndexHandle K) (l : List Int) (k : K) (x : Int) (A B : List Int)
    (pg : IxPage K) : Prop where
  level : l = A ++ x :: B
  page : s.pages x = some pg
  leaf : pg.isLeaf = true
  before : ∀ e ∈ cat s A, e.1 < k
  after : ∀ e ∈ cat s B, k < e.1

section
variable {s : IxIndexHandle K} {l : List Int} {ls : List (List Int)} (h : Tree s l ls)
include h

theorem Tree.length_lt : ls.length < s.rounds :=
  h.up.length_lt (List.ne_nil_of_mem (List.mem_of_head? h.leaves.first)) h.alloc

theorem Tree.slots_ne_nil (hls : ls ≠ []) {p : Int} (hp : p ∈ l) : slotsAt s p ≠ [] := by
  intro hnil
  have h1 := (h.sized p hp).1
  have h2 := h.order
  rw [if_neg hls, hnil] at h1
  simp only [getMinSize, getMaxSize, List.length_nil] at h1
  omega

theorem Tree.single (hls : ls = []) : ∃ p, l = [p] := by
  subst hls
  obtain ⟨k, hk, -⟩ := h.up
  have := congrArg pagesOf hk
  rw [pagesOf_view] at this
  exact ⟨s.rootPage, by simpa [pagesOf, childRid] using this⟩

theorem Tree.increasing_view : Increasing (view s l) := by
  by_cases hls : ls = []
  · obtain ⟨p, rfl⟩ := h.single hls
    exact List.pairwise_singleton _ _
  · exact Index.increasing_view h.leaves.sorted fun p hp => h.slots_ne_nil hls hp

theorem Tree.leafFor {k : K} {x : Int} (hr : Routes (view s l) k x) :
    ∃ A B pg, LeafFor s l k x A B pg := by
  obtain ⟨KA, kx, KB, hview, hKA, hKB⟩ := hr
  obtain ⟨A, l', rfl, hA, hl'⟩ := List.map_eq_append_iff.1 hview
  obtain ⟨x', B, rfl, hx', hB⟩ := List.map_eq_cons_iff.1 hl'
  obtain ⟨rfl, rfl⟩ : firstKey s x' = kx ∧ x' = x := by simpa [childRid] using hx'
  obtain ⟨pg, hpg, hleaf⟩ := h.leaves.leaf x' (by simp)
  have hsorted := h.leaves.sorted
  rw [cat_append, cat_cons] at hsorted
  refine ⟨A, B, pg, rfl, hpg, hleaf, fun e he => ?_, fun e he => ?_⟩
  · rcases hKA with rfl | hle
    · rw [List.map_eq_nil_iff] at hA
      simp [hA] at he
    · have hls : ls ≠ [] := by
        intro hls
        obtain ⟨p, hp⟩ := h.single hls
        have hnil : A = [] := by
          cases A <;> simp_all
        simp [hnil] at he
      obtain ⟨r, hr⟩ := firstKey_mem (h.slots_ne_nil hls (p := x') (by simp))
      have := (increasing_append.1 hsorted).2.2 e he _ (List.mem_append_left _ hr)
      exact lt_of_lt_of_le this hle
  · obtain ⟨p, hp, hd⟩ := mem_cat.1 he
    refine lt_of_lt_of_le (hKB (firstKey s p, childRid p) ?_)
      (firstKey_le (h.leaves.sorted.slotsAt (by simp [hp])) hd)
    rw [← hB]
    exact List.mem_map.2 ⟨p, hp, rfl⟩

theorem findLeafPage_spec (k : K) : ∃ x A B pg, LeafFor s l k x A B pg ∧
    findLeafPage false s.rounds s k s.rootPage = some x := by
  have hlen := h.length_lt
  obtain ⟨x, hr, hrun⟩ := findLeafPage_descend h.order k ls (view s l) (s.rounds - ls.length) h.up
    h.increasing_view (fun e he => by obtain ⟨p, -, rfl⟩ := List.mem_map.1 he; rfl)
    (h.alloc.sublist (by simp))
  obtain ⟨A, B, pg, hx⟩ := h.leafFor hr
  refine ⟨x, A, B, pg, hx, ?_⟩
  rw [Nat.sub_add_cancel (Nat.le_of_lt hlen)] at hrun
  obtain ⟨n, hn⟩ : ∃ n, s.rounds - ls.length = n + 1 := ⟨s.rounds - ls.length - 1, by omega⟩
  have hfetch : s.fetchNode x = some pg := by
    rw [h.alloc.fetchNode (by simp [hx.level]), hx.page]
  rw [hrun, hn]
  simp [findLeafPage, hfetch, hx.leaf]

end

omit [Inhabited K] in
/-- What the leaf of `k` holds for `k` is what the index holds for it. -/
theorem LeafFor.lookup {s : IxIndexHandle K} {l : List Int} {k : K} {x : Int} {A B : List Int}
    {pg : IxPage K} (h : LeafFor s l k x A B pg) : (cat s l).lookup k = pg.slots.lookup k := by
  have hA : (cat s A).lookup k = none := List.lookup_eq_none_iff.2 fun e he =>
    bne_iff_ne.2 (ne_of_gt (h.before e he))
  have hB : (cat s B).lookup k = none := List.lookup_eq_none_iff.2 fun e he =>
    bne_iff_ne.2 (ne_of_lt (h.after e he))
  rw [h.level, cat_append, cat_cons, slotsAt_eq h.page, List.lookup_append, List.lookup_append, hA, hB]
  simp

/-- `get_value` reads the entries of the leaves as an association list. -/
theorem getValue_eq {s : IxIndexHandle K} {l : List Int} {ls : List (List Int)} (h : Tree s l ls)
    (k : K) : s.getValue k = some ((cat s l).lookup k) := by
  obtain ⟨x, A, B, pg, hx, hrun⟩ := findLeafPage_spec h k
  have hinc : Increasing pg.slots := by
    rw [← slotsAt_eq hx.page]
    exact h.leaves.sorted.slotsAt (by simp [hx.level])
  simp [getValue, hrun, hx.page, leafLookup_eq pg k hinc, hx.lookup]

end

end Rmdb.Index
