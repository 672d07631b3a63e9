import Rmdb.Index.Key
import Rmdb.Index.Delete
import Rmdb.Lib.Run

/-!
# The index over whole runs

From the file `create_index` writes, every sequence of `insert_entry` and `delete_entry`
succeeds, leaves a well formed tree (`run_wellFormed`), and the index answers as the finite
map that the same sequence drives (`run_refines`).
-/

namespace Rmdb.Index

open IxIndexHandle Rmdb.Lib

/-! ## The tree seen from the root -/

section
variable {K : Type} [LinearOrder K] [Inhabited K]

/-- Page `p` is the root of a subtree of height `h` with the leaves `l`, left to right: the
keys of every page increase, the `i`-th entry of an internal page is the first key of its
`i`-th child with the page of the child, and every child names its parent and is at least
half full. -/
inductive Subtree (s : IxIndexHandle K) : Nat → Int → List Int → Prop
  | leaf {p : Int} {pg : IxPage K} : s.pages p = some pg → pg.isLeaf = true →
      Increasing pg.slots → pg.getSize < s.getMaxSize → Subtree s 0 p [p]
  | inner {h : Nat} {p : Int} {pg : IxPage K} (cs : List (Int × List Int)) :
      s.pages p = some pg → pg.isLeaf = false → Increasing pg.slots →
      pg.getSize < s.getMaxSize → pg.slots = cs.map (fun c => (firstKey s c.1, childRid c.1)) →
      (∀ c ∈ cs, parentAt s c.1 = p) → (∀ c ∈ cs, s.getMinSize ≤ (slotsAt s c.1).length) →
      (∀ c ∈ cs, Subtree s h c.1 c.2) → Subtree s (h + 1) p (cs.flatMap Prod.snd)

/-- The pages form a tree below the root, all leaves at the depth `height`; the leaves in key
order are the ring through the leaf header page. -/
structure WellFormed (s : IxIndexHandle K) (height : Nat) (leaves : List Int) : Prop where
  tree : Subtree s height s.rootPage leaves
  root : parentAt s s.rootPage = ixNoPage
  sorted : Increasing (cat s leaves)
  ring : Links s ixLeafHeaderPage leaves ixLeafHeaderPage
  first : leaves.head? = some s.firstLeaf
  last : leaves.getLast? = some s.lastLeaf

/-- Above subtrees of one height the levels hold subtrees, up to the root. -/
theorem Up.subtree {s : IxIndexHandle K} (ho : 2 < s.btreeOrder) :
    ∀ (ls : List (List Int)) (l : List Int) (h : Nat) (f : Int → List Int), Up s (view s l) ls →
      Increasing (view s l) → (∀ p ∈ l, Subtree s h p (f p)) →
      (ls ≠ [] → ∀ p ∈ l, s.getMinSize ≤ (slotsAt s p).length) →
      ∃ h', Subtree s h' s.rootPage (l.flatMap f) := by
  intro ls
  induction ls with
  | nil =>
      rintro l h f ⟨k, hk, -⟩ - hsub -
      obtain rfl : l = [s.rootPage] := by
        have := congrArg pagesOf hk
        rw [pagesOf_view] at this
        simpa [childRid, pagesOf] using this
      exact ⟨h, by simpa using hsub s.rootPage (by simp)⟩
  | cons m ls ih =>
      rintro l h f ⟨hcat, hm, hup⟩ hinc hsub hsize
      rw [← hcat] at hinc
      have hlow : 2 ≤ lowest s ls := by
        simp only [lowest, getMinSize, getMaxSize]
        split <;> omega
      have hne : ∀ q ∈ m, slotsAt s q ≠ [] := fun q hq hnil => by
        have := (hm q hq).2.1
        rw [hnil, List.length_nil] at this
        omega
      have hflat : l.flatMap f = m.flatMap fun q => (pagesOf (slotsAt s q)).flatMap f := by
        have : l = m.flatMap fun q => pagesOf (slotsAt s q) := by
          rw [← pagesOf_view s l, ← hcat, cat, pagesOf, List.map_flatMap]
          rfl
        rw [this, List.flatMap_assoc]
      rw [hflat]
      refine ih m (h + 1) _ hup (Index.increasing_view hinc hne) (fun q hq => ?_) fun hls q hq => ?_
      · obtain ⟨⟨⟨pg, hpg, hleaf⟩, hpar⟩, -, hmax⟩ := hm q hq
        have hmem : ∀ e ∈ slotsAt s q, ∃ c ∈ l, (firstKey s c, childRid c) = e := fun e he => by
          have : e ∈ view s l := hcat ▸ mem_cat.2 ⟨q, hq, he⟩
          exact List.mem_map.1 this
        have hkid : ∀ c ∈ pagesOf (slotsAt s q), c ∈ l := by
          intro c hc
          obtain ⟨e, he, rfl⟩ := List.mem_map.1 hc
          obtain ⟨c, hcl, rfl⟩ := hmem e he
          exact hcl
        have hslots : slotsAt s q = (pagesOf (slotsAt s q)).map fun c =>
            (firstKey s c, childRid c) := by
          rw [pagesOf, List.map_map]
          refine (List.map_id _).symm.trans (List.map_congr_left fun e he => ?_)
          obtain ⟨c, -, rfl⟩ := hmem e he
          rfl
        have hinner := Subtree.inner (h := h) ((pagesOf (slotsAt s q)).map fun c => (c, f c)) hpg hleaf
          (by rw [← slotsAt_eq hpg]; exact hinc.slotsAt hq)
          (by rw [IxPage.getSize, ← slotsAt_eq hpg]; exact hmax)
          (by rw [List.map_map, ← slotsAt_eq hpg]; exact hslots)
          (fun c hc => ?_) (fun c hc => ?_) (fun c hc => ?_)
        · simpa [List.flatMap_map] using hinner
        all_goals obtain ⟨c, hcq, rfl⟩ := List.mem_map.1 hc
        · exact hpar c hcq
        · exact hsize (by simp) c (hkid c hcq)
        · exact hsub c (hkid c hcq)
      · have := (hm q hq).2.1
        rwa [lowest, if_neg hls] at this

theorem Tree.wellFormed {s : IxIndexHandle K} {l : List Int} {ls : List (List Int)}
    (t : Tree s l ls) : ∃ h, WellFormed s h l := by
  have hroot : ∀ {ks : List (K × Rid)} {ls : List (List Int)}, Up s ks ls →
      parentAt s s.rootPage = ixNoPage := by
    intro ks ls
    induction ls generalizing ks with
    | nil => exact fun ⟨_, _, h⟩ => h
    | cons m ls ih => exact fun ⟨_, _, h⟩ => ih h
  have hleaf : ∀ p ∈ l, Subtree s 0 p [p] := by
    intro p hp
    obtain ⟨pg, hpg, hleaf⟩ := t.leaves.leaf p hp
    refine .leaf hpg hleaf ?_ ?_
    · rw [← slotsAt_eq hpg]
      exact t.leaves.sorted.slotsAt hp
    · rw [IxPage.getSize, ← slotsAt_eq hpg]
      exact (t.sized p hp).2
  have hsize : ls ≠ [] → ∀ p ∈ l, s.getMinSize ≤ (slotsAt s p).length := by
    intro hls p hp
    have := (t.sized p hp).1
    rwa [if_neg hls] at this
  obtain ⟨h, hsub⟩ := Up.subtree t.order ls l 0 (fun p => [p]) t.up t.increasing_view hleaf hsize
  exact ⟨h, by simpa using hsub, hroot t.up, t.leaves.sorted, t.leaves.ring, t.leaves.first,
    t.leaves.last⟩

end

/-! ## Runs -/

section
variable {K : Type} [LinearOrder K] [Inhabited K]

/-- A call that changes the index. -/
inductive IxOp (K : Type) where
  | insert (key : K) (value : Rid)
  | delete (key : K)

/-- The state after the call; `none` if a page is missing. -/
def IxOp.apply (s : IxIndexHandle K) : IxOp K → Option (IxIndexHandle K)
  | insert k v => (s.insertEntry k v).map Prod.fst
  | delete k => (s.deleteEntry k).map Prod.fst

/-- What the index is for: a finite map, where an insert does not replace. -/
def IxOp.applyMap [DecidableEq K] (m : K → Option Rid) : IxOp K → K → Option Rid
  | insert k v => if (m k).isSome then m else Function.update m k (some v)
  | delete k => Function.update m k none

/-- The index `s` is a tree whose entries are those of `m`. -/
def Represents (s : IxIndexHandle K) (m : K → Option Rid) : Prop :=
  ∃ l ls, Tree s l ls ∧ ∀ k, (cat s l).lookup k = m k

theorem represents_createIndex {o : Nat} (ho : 2 < o) :
    Represents (createIndex o : IxIndexHandle K) fun _ => none := by
  have hroot : (createIndex o : IxIndexHandle K).pages 2 =
      some ⟨ixNoPage, true, ixLeafHeaderPage, ixLeafHeaderPage, []⟩ := rfl
  have hslots : slotsAt (createIndex o : IxIndexHandle K) 2 = [] := slotsAt_eq hroot
  refine ⟨[2], [], ⟨ho, ⟨?_, ?_, rfl, ?_, rfl, rfl⟩, ?_, ?_, ⟨by simp, ?_, ?_, rfl⟩, ?_⟩, ?_⟩
  · intro p hp
    obtain rfl : p = 2 := by simpa using hp
    exact ⟨_, hroot, rfl⟩
  · simp [hslots, Increasing]
  · exact ⟨⟨rfl, rfl⟩, rfl, rfl⟩
  · intro p hp
    obtain rfl : p = 2 := by simpa using hp
    rw [Sized, hslots]
    exact ⟨Nat.le_refl _, Nat.succ_pos _⟩
  · exact ⟨firstKey (createIndex o) 2, rfl, rfl⟩
  · intro p hp
    obtain rfl : p = 2 := by simpa using hp
    exact ⟨Int.le_refl _, show (2 : Int) < 3 by decide⟩
  · intro p hp
    obtain rfl : p = 2 := by simpa using hp
    rw [hroot]
    rfl
  · intro p hp
    cases hp
  · intro k
    simp [hslots]

omit [Inhabited K] in
/-- An entry put at its place is found, the others as before. -/
theorem Placed.lookup {E E' : List (K × Rid)} {k : K} {v : Rid} (h : Placed E E' k v) :
    E.lookup k = none ∧ ∀ k', E'.lookup k' = if k' = k then some v else E.lookup k' := by
  obtain ⟨E1, E2, rfl, rfl, h1, h2⟩ := h
  have hE1 : E1.lookup k = none := List.lookup_eq_none_iff.2 fun e he =>
    bne_iff_ne.2 (ne_of_gt (h1 e he))
  have hE2 : E2.lookup k = none := List.lookup_eq_none_iff.2 fun e he =>
    bne_iff_ne.2 (ne_of_lt (h2 e he))
  refine ⟨by simp [List.lookup_append, hE1, hE2], fun k' => ?_⟩
  rw [List.lookup_append, List.lookup_append]
  by_cases hk : k' = k
  · subst hk
    simp [hE1]
  · have : (k' == k) = false := beq_eq_false_iff_ne.2 hk
    simp [hk, List.lookup_cons, this]

theorem Represents.apply {s : IxIndexHandle K} {m : K → Option Rid} (h : Represents s m)
    (op : IxOp K) : ∃ s', op.apply s = some s' ∧ Represents s' (op.applyMap m) := by
  obtain ⟨l, ls, t, hm⟩ := h
  cases op with
  | insert k v =>
      obtain ⟨s', p, l', ls', hrun, t', hcat⟩ := insertEntry_spec t k v
      refine ⟨s', by simp [IxOp.apply, hrun], l', ls', t', fun k' => ?_⟩
      rcases hcat with ⟨r, hr, hcat⟩ | hcat
      · rw [hcat, hm k', IxOp.applyMap, if_pos (by rw [← hm k, hr]; rfl)]
      · obtain ⟨hnone, hlook⟩ := hcat.lookup
        rw [IxOp.applyMap, if_neg (by rw [← hm k, hnone]; simp), hlook k', hm k',
          Function.update_apply]
  | delete k =>
      obtain ⟨s', found, l', ls', hrun, t', hcat⟩ := deleteEntry_spec t k
      refine ⟨s', by simp [IxOp.apply, hrun], l', ls', t', fun k' => ?_⟩
      rw [IxOp.applyMap, Function.update_apply]
      rcases hcat with ⟨-, hnone, hcat⟩ | ⟨r, -, hcat⟩
      · rw [hcat, hm k']
        split
        · next hk => rw [hk, ← hm k, hnone]
        · rfl
      · obtain ⟨hnone, hlook⟩ := hcat.lookup
        split
        · next hk => rw [hk, hnone]
        · next hk => rw [← hm k', hlook k', if_neg hk]

theorem Represents.getValue {s : IxIndexHandle K} {m : K → Option Rid} (h : Represents s m)
    (k : K) : s.getValue k = some (m k) := by
  obtain ⟨l, ls, t, hm⟩ := h
  rw [getValue_eq t, hm k]

theorem Represents.deleteEntry {s : IxIndexHandle K} {m : K → Option Rid} (h : Represents s m)
    (k : K) : ∃ s', s.deleteEntry k = some (s', (m k).isSome) := by
  obtain ⟨l, ls, t, hm⟩ := h
  obtain ⟨s', found, l', ls', hrun, -, hcat⟩ := deleteEntry_spec t k
  refine ⟨s', ?_⟩
  rcases hcat with ⟨rfl, hnone, -⟩ | ⟨r, rfl, hcat⟩
  · rw [hrun, ← hm k, hnone]
    rfl
  · rw [hrun, ← hm k, hcat.lookup.2 k, if_pos rfl]
    rfl

/-- Every run of calls from a new index succeeds and represents the map of the same run. -/
theorem run_represents {o : Nat} (ho : 2 < o) (ops : List (IxOp K)) :
    ∃ s, run IxOp.apply (createIndex o) ops = some s ∧
      Represents s (ops.foldl IxOp.applyMap fun _ => none) :=
  run_sim (fun _ _ op h => h.apply op) ops _ _ (represents_createIndex ho)

end

/-- After any calls on a new index over `INT` and `CHAR` columns its pages are a well formed
tree. -/
theorem run_wellFormed (cols : List IxCol) (btreeOrder : Nat) (ho : 2 < btreeOrder)
    (ops : List (IxOp (IxKey cols))) :
    ∃ s height leaves, run IxOp.apply (createIndex btreeOrder) ops = some s ∧
      WellFormed s height leaves := by
  obtain ⟨s, hrun, l, ls, t, -⟩ := run_represents ho ops
  obtain ⟨h, hw⟩ := t.wellFormed
  exact ⟨s, h, l, hrun, hw⟩

/-- The key of an `INT` column. -/
def intKey (n : Nat) : IxKey [.int] := ⟨[UInt8.ofNat n, 0, 0, 0], rfl⟩

/-- Ten inserts, which split up to a root on page 8 over two levels, and four deletes: the pages merge and the root is the child on
page 4. -/
def splitAndMerged : List (IxOp (IxKey [.int])) :=
  ((List.range 10).map fun n => .insert (intKey n) ⟨1, n⟩) ++ (List.range 4).map fun n => .delete (intKey n)

theorem run_wellFormed_order_three : ∃ s height leaves, run IxOp.apply (createIndex 3) splitAndMerged = some s ∧
    WellFormed s height leaves ∧ s.numPages = 10 ∧ s.rootPage = 4 := by
  obtain ⟨s, height, leaves, hrun, hw⟩ := run_wellFormed [.int] 3 (by decide) splitAndMerged
  have hpages : (run IxOp.apply (createIndex 3) splitAndMerged).map (fun s => (s.numPages, s.rootPage)) = some (10, 4) := by
    decide +kernel
  rw [hrun] at hpages
  have heq := Prod.mk.inj (Option.some.inj hpages)
  exact ⟨s, height, leaves, hrun, hw, heq.1, heq.2⟩

/-- The index answers as the finite map driven by the same calls: `get_value` finds what the
map binds, and `delete_entry` tells whether it binds the key. -/
theorem run_refines (cols : List IxCol) (btreeOrder : Nat) (ho : 2 < btreeOrder)
    (ops : List (IxOp (IxKey cols))) :
    ∃ s, run IxOp.apply (createIndex btreeOrder) ops = some s ∧ ∀ k,
      s.getValue k = some (ops.foldl IxOp.applyMap (fun _ => none) k) ∧
      ∃ s', s.deleteEntry k = some (s', (ops.foldl IxOp.applyMap (fun _ => none) k).isSome) := by
  obtain ⟨s, hrun, h⟩ := run_represents ho ops
  exact ⟨s, hrun, fun k => ⟨h.getValue k, h.deleteEntry k⟩⟩

theorem run_refines_order_three : ∃ s, run IxOp.apply (createIndex 3) splitAndMerged = some s ∧
    s.getValue (intKey 9) = some (some ⟨1, 9⟩) ∧ s.getValue (intKey 3) = some none ∧
      ∃ s', s.deleteEntry (intKey 4) = some (s', true) := by
  obtain ⟨s, hrun, h⟩ := run_refines [.int] 3 (by decide) splitAndMerged
  have h9 : splitAndMerged.foldl IxOp.applyMap (fun _ => none) (intKey 9) = some ⟨1, 9⟩ := by decide +kernel
  have h3 : splitAndMerged.foldl IxOp.applyMap (fun _ => none) (intKey 3) = none := by decide +kernel
  have h4 : splitAndMerged.foldl IxOp.applyMap (fun _ => none) (intKey 4) = some ⟨1, 4⟩ := by decide +kernel
  refine ⟨s, hrun, ?_, ?_, ?_⟩
  · rw [(h (intKey 9)).1, h9]
  · rw [(h (intKey 3)).1, h3]
  · have hdel := (h (intKey 4)).2
    rw [h4] at hdel
    exact hdel

end Rmdb.Index
