import Mathlib
import Rmdb.Lib.BinSearch

/-!
# B+tree pages and the operations of one node

`IxPage K` is one page of an index file: the `IxPageHdr` fields and the filled part
`[0, num_key)` of the key and rid arrays, kept as one list of pairs.  The functions
are those of `IxNodeHandle` (src/index/ix_index_handle.cpp); `ix_compare` is the order
of `K`, `memcmp` equality is equality in `K`.  A read past the filled part gives an
unspecified key (`default`), as the array read does.  Page numbers (`page_id_t`) are `Int`.
-/

namespace Rmdb.Index

open Rmdb.Lib

/-- `Rid`: page number and slot number. -/
structure Rid where
  pageNo : Int
  slotNo : Int
deriving DecidableEq, Repr, Inhabited

/-- `IX_NO_PAGE`, also `INVALID_PAGE_ID`. -/
def ixNoPage : Int := -1
def ixLeafHeaderPage : Int := 1
def ixInitRootPage : Int := 2
def ixInitNumPages : Int := 3

structure IxPage (K : Type) where
  parent : Int
  isLeaf : Bool
  prevLeaf : Int
  nextLeaf : Int
  /-- `(key, rid)` for `key_idx` in `[0, num_key)` -/
  slots : List (K × Rid)

/-- The entry an internal node holds for a child: `Rid{child, -1}`. -/
def childRid (p : Int) : Rid := ⟨p, -1⟩

namespace IxPage

variable {K : Type} [Inhabited K]

/-- A page as `new_page` hands it out: all bytes zero. -/
def zero : IxPage K := ⟨0, false, 0, 0, []⟩

def getSize (pg : IxPage K) : Nat := pg.slots.length
def getKey (pg : IxPage K) (i : Nat) : K := (pg.slots.getD i default).1
def getRid (pg : IxPage K) (i : Nat) : Rid := (pg.slots.getD i default).2
def valueAt (pg : IxPage K) (i : Nat) : Int := (pg.getRid i).pageNo

def setParentPageNo (pg : IxPage K) (p : Int) : IxPage K := { pg with parent := p }
def setNextLeaf (pg : IxPage K) (p : Int) : IxPage K := { pg with nextLeaf := p }
def setPrevLeaf (pg : IxPage K) (p : Int) : IxPage K := { pg with prevLeaf := p }
/-- `set_size` is only used to cut a node. -/
def setSize (pg : IxPage K) (n : Nat) : IxPage K := { pg with slots := pg.slots.take n }
def setKey (pg : IxPage K) (i : Nat) (k : K) : IxPage K :=
  { pg with slots := pg.slots.modify i fun e => (k, e.2) }

def insertPairs (pg : IxPage K) (pos : Nat) (kvs : List (K × Rid)) : IxPage K :=
  { pg with slots := pg.slots.take pos ++ kvs ++ pg.slots.drop pos }

def insertPair (pg : IxPage K) (pos : Nat) (key : K) (rid : Rid) : IxPage K :=
  pg.insertPairs pos [(key, rid)]

def erasePair (pg : IxPage K) (pos : Nat) : IxPage K :=
  { pg with slots := pg.slots.eraseIdx pos }

/-- Position of `child` in its parent; `none` where the source's assertion fails. -/
def findChild (pg : IxPage K) (child : Int) : Option Nat :=
  pg.slots.findIdx? fun e => e.2.pageNo == child

variable [LinearOrder K]

/-- First `i` with `key i ≥ target`, `num_key` when there is none. -/
def lowerBound (pg : IxPage K) (target : K) : Nat :=
  binSearch (fun i => decide (target ≤ pg.getKey i)) pg.getSize 0 pg.getSize

/-- First `i ≥ 1` with `key i > target`, `num_key` when there is none. -/
def upperBound (pg : IxPage K) (target : K) : Nat :=
  binSearch (fun i => decide (target < pg.getKey i)) (pg.getSize - 1) 1 pg.getSize

def leafLookup (pg : IxPage K) (key : K) : Option Rid :=
  let idx := pg.lowerBound key
  if idx ≥ pg.getSize then none
  else if pg.getKey idx ≠ key then none
  else some (pg.getRid idx)

def internalLookup (pg : IxPage K) (key : K) : Int :=
  pg.valueAt (pg.upperBound key - 1)

/-- Insert unless the key is there already. -/
def insert (pg : IxPage K) (key : K) (value : Rid) : IxPage K :=
  let pos := pg.lowerBound key
  if pos < pg.getSize ∧ pg.getKey pos = key then pg
  else pg.insertPair pos key value

def remove (pg : IxPage K) (key : K) : IxPage K :=
  let pos := pg.lowerBound key
  if pos ≥ pg.getSize then pg
  else if pg.getKey pos ≠ key then pg
  else pg.erasePair pos

end IxPage

/-! ## Entries in key order -/

/-- Strictly increasing keys. -/
def Increasing {K : Type} [LT K] (l : List (K × Rid)) : Prop := l.Pairwise fun a b => a.1 < b.1

section
variable {K : Type} [LinearOrder K]

theorem increasing_append {a b : List (K × Rid)} :
    Increasing (a ++ b) ↔ Increasing a ∧ Increasing b ∧ ∀ x ∈ a, ∀ y ∈ b, x.1 < y.1 :=
  List.pairwise_append

theorem increasing_cons {e : K × Rid} {l : List (K × Rid)} :
    Increasing (e :: l) ↔ (∀ y ∈ l, e.1 < y.1) ∧ Increasing l :=
  List.pairwise_cons

/-- Keys do not decrease along the positions of increasing entries. -/
theorem Increasing.getD_mono [Inhabited K] {l : List (K × Rid)} (h : Increasing l) {i j : Nat}
    (hij : i ≤ j) (hj : j < l.length) : (l.getD i default).1 ≤ (l.getD j default).1 := by
  rw [List.getD_eq_getElem _ _ (by omega : i < l.length), List.getD_eq_getElem _ _ hj]
  rcases Nat.eq_or_lt_of_le hij with rfl | hlt
  · exact le_refl _
  · exact le_of_lt (List.pairwise_iff_getElem.1 h i j (by omega) hj hlt)

end

/-! ## What the searches find -/

section
variable {K : Type} [Inhabited K]

theorem getD_mem_take {l : List (K × Rid)} {n : Nat} {e : K × Rid} (h : e ∈ l.take n) :
    ∃ i, i < n ∧ i < l.length ∧ l.getD i default = e := by
  obtain ⟨i, hi, rfl⟩ := List.mem_iff_getElem.1 h
  have hi' : i < n ∧ i < l.length := by
    rw [List.length_take] at hi
    omega
  exact ⟨i, hi'.1, hi'.2, by rw [List.getD_eq_getElem _ _ hi'.2, List.getElem_take]⟩

theorem getD_mem_drop {l : List (K × Rid)} {n : Nat} {e : K × Rid} (h : e ∈ l.drop n) :
    ∃ i, n ≤ i ∧ i < l.length ∧ l.getD i default = e := by
  obtain ⟨i, hi, rfl⟩ := List.mem_iff_getElem.1 h
  have hi' : n + i < l.length := by simp at hi; omega
  exact ⟨n + i, by omega, hi', by rw [List.getD_eq_getElem _ _ hi', List.getElem_drop]⟩

variable [LinearOrder K]

/-- `lower_bound` cuts the node in front of the first key that is not smaller. -/
theorem lowerBound_cut (pg : IxPage K) (k : K) (h : Increasing pg.slots) :
    ∃ A B, pg.slots = A ++ B ∧ pg.lowerBound k = A.length ∧
      (∀ e ∈ A, e.1 < k) ∧ ∀ e ∈ B, k ≤ e.1 := by
  obtain ⟨-, hle, hlo, hhi⟩ := binSearch_spec (fun i => decide (k ≤ pg.getKey i))
    pg.getSize 0 pg.getSize (Nat.zero_le _) (by omega) (by
      intro i j _ hij hj hi
      simp only [decide_eq_true_eq] at hi ⊢
      exact le_trans hi (h.getD_mono hij hj))
  refine ⟨pg.slots.take (pg.lowerBound k), pg.slots.drop (pg.lowerBound k),
    (List.take_append_drop _ _).symm, ?_, fun e he => ?_, fun e he => ?_⟩
  · rw [List.length_take]
    exact (Nat.min_eq_left hle).symm
  · obtain ⟨i, hi, -, rfl⟩ := getD_mem_take he
    simpa [IxPage.getKey] using hlo i (Nat.zero_le _) hi
  · obtain ⟨i, hi, hil, rfl⟩ := getD_mem_drop he
    simpa [IxPage.getKey] using hhi i hi hil

/-- `internal_lookup` takes the last entry whose key is not greater, or the first entry. -/
theorem internalLookup_cut (pg : IxPage K) (k : K) (h : Increasing pg.slots)
    (hne : pg.slots ≠ []) :
    ∃ A e B, pg.slots = A ++ e :: B ∧ pg.internalLookup k = e.2.pageNo ∧
      (A = [] ∨ e.1 ≤ k) ∧ ∀ x ∈ B, k < x.1 := by
  have hpos : 1 ≤ pg.getSize := List.length_pos_iff.2 hne
  obtain ⟨hge, hle, hlo, hhi⟩ := binSearch_spec (fun i => decide (k < pg.getKey i))
    (pg.getSize - 1) 1 pg.getSize hpos (by omega) (by
      intro i j _ hij hj hi
      simp only [decide_eq_true_eq] at hi ⊢
      exact lt_of_lt_of_le hi (h.getD_mono hij hj))
  change 1 ≤ pg.upperBound k at hge
  change pg.upperBound k ≤ pg.slots.length at hle
  have hu : pg.upperBound k - 1 < pg.slots.length := by omega
  refine ⟨pg.slots.take (pg.upperBound k - 1), pg.slots[pg.upperBound k - 1],
    pg.slots.drop (pg.upperBound k), ?_, ?_, ?_, fun x hx => ?_⟩
  · conv_lhs => rw [← List.take_append_drop (pg.upperBound k - 1) pg.slots]
    rw [List.drop_eq_getElem_cons hu]
    congr 3
    omega
  · simp only [IxPage.internalLookup, IxPage.valueAt, IxPage.getRid]
    rw [List.getD_eq_getElem _ _ hu]
  · by_cases h1 : pg.upperBound k = 1
    · exact Or.inl (by rw [h1]; rfl)
    · right
      have := hlo (pg.upperBound k - 1) (by omega) (by change _ < pg.upperBound k; omega)
      have hle' := not_lt.1 (of_decide_eq_false this)
      rwa [IxPage.getKey, List.getD_eq_getElem _ _ hu] at hle'
  · obtain ⟨i, hi, hil, rfl⟩ := getD_mem_drop hx
    simpa [IxPage.getKey] using hhi i hi hil

/-- What `lower_bound` decides about a key: it is absent and belongs at the cut, or it
is the first entry after the cut. -/
theorem lowerBound_cases (pg : IxPage K) (k : K) (h : Increasing pg.slots) :
    (∃ A B, pg.slots = A ++ B ∧ pg.lowerBound k = A.length ∧
      (∀ e ∈ A, e.1 < k) ∧ ∀ e ∈ B, k < e.1) ∨
    (∃ A r B, pg.slots = A ++ (k, r) :: B ∧ pg.lowerBound k = A.length ∧
      (∀ e ∈ A, e.1 < k) ∧ ∀ e ∈ B, k < e.1) := by
  obtain ⟨A, B, hs, hl, hA, hB⟩ := lowerBound_cut pg k h
  cases B with
  | nil => exact Or.inl ⟨A, [], hs, hl, hA, fun e he => by cases he⟩
  | cons e B =>
      obtain ⟨ke, re⟩ := e
      have hinc := (increasing_append.1 (hs ▸ h)).2.1
      have hBlt := (increasing_cons.1 hinc).1
      rcases lt_or_eq_of_le (hB _ List.mem_cons_self) with hlt | heq
      · refine Or.inl ⟨A, (ke, re) :: B, hs, hl, hA, fun x hx => ?_⟩
        rcases List.mem_cons.1 hx with rfl | hx
        · exact hlt
        · exact lt_trans hlt (hBlt x hx)
      · simp only at heq
        subst heq
        exact Or.inr ⟨A, re, B, hs, hl, hA, hBlt⟩

/-- `leaf_lookup` reads the node as an association list. -/
theorem leafLookup_eq (pg : IxPage K) (k : K) (h : Increasing pg.slots) :
    pg.leafLookup k = pg.slots.lookup k := by
  rcases lowerBound_cases pg k h with ⟨A, B, hs, hl, hA, hB⟩ | ⟨A, r, B, hs, hl, hA, hB⟩
  · have hnone : pg.slots.lookup k = none := by
      rw [List.lookup_eq_none_iff, hs]
      intro p hp
      rcases List.mem_append.1 hp with hp | hp
      · exact bne_iff_ne.2 (ne_of_gt (hA p hp))
      · exact bne_iff_ne.2 (ne_of_lt (hB p hp))
    rw [hnone]
    simp only [IxPage.leafLookup, hl]
    split
    · rfl
    · next hlt =>
      cases B with
      | nil => simp [IxPage.getSize, hs] at hlt
      | cons e B =>
          have hk : pg.getKey A.length = e.1 := by simp [IxPage.getKey, hs]
          rw [hk, if_pos (ne_of_gt (hB e List.mem_cons_self))]
  · have hk : pg.getKey A.length = k := by simp [IxPage.getKey, hs]
    have hr : pg.getRid A.length = r := by simp [IxPage.getRid, hs]
    have hlk : pg.slots.lookup k = some r := by
      rw [hs, List.lookup_append, List.lookup_eq_none_iff.2 (fun p hp =>
        bne_iff_ne.2 (ne_of_gt (hA p hp)))]
      simp
    simp only [IxPage.leafLookup, hl, hk, hr, hlk]
    rw [if_neg (by simp [IxPage.getSize, hs]), if_neg (by simp)]

/-- `insert` either finds the key or puts the pair at its place. -/
theorem insert_cases (pg : IxPage K) (k : K) (v : Rid) (h : Increasing pg.slots) :
    (∃ A B, pg.slots = A ++ B ∧ (∀ e ∈ A, e.1 < k) ∧ (∀ e ∈ B, k < e.1) ∧
      pg.insert k v = { pg with slots := A ++ (k, v) :: B }) ∨
    (∃ A r B, pg.slots = A ++ (k, r) :: B ∧ (∀ e ∈ A, e.1 < k) ∧ (∀ e ∈ B, k < e.1) ∧
      pg.insert k v = pg) := by
  rcases lowerBound_cases pg k h with ⟨A, B, hs, hl, hA, hB⟩ | ⟨A, r, B, hs, hl, hA, hB⟩
  · refine Or.inl ⟨A, B, hs, hA, hB, ?_⟩
    simp only [IxPage.insert, hl]
    rw [if_neg]
    · simp [IxPage.insertPair, IxPage.insertPairs, hs]
    · rintro ⟨hlt, hk⟩
      cases B with
      | nil => simp [IxPage.getSize, hs] at hlt
      | cons e B =>
          have hke : pg.getKey A.length = e.1 := by simp [IxPage.getKey, hs]
          exact absurd (hB e List.mem_cons_self) (by rw [← hke, hk]; exact lt_irrefl _)
  · refine Or.inr ⟨A, r, B, hs, hA, hB, ?_⟩
    simp only [IxPage.insert, hl]
    rw [if_pos ⟨by simp [IxPage.getSize, hs], by simp [IxPage.getKey, hs]⟩]

/-- `remove` either misses the key or takes its pair out. -/
theorem remove_cases (pg : IxPage K) (k : K) (h : Increasing pg.slots) :
    (∃ A B, pg.slots = A ++ B ∧ (∀ e ∈ A, e.1 < k) ∧ (∀ e ∈ B, k < e.1) ∧
      pg.remove k = pg) ∨
    (∃ A r B, pg.slots = A ++ (k, r) :: B ∧ (∀ e ∈ A, e.1 < k) ∧ (∀ e ∈ B, k < e.1) ∧
      pg.remove k = { pg with slots := A ++ B }) := by
  rcases lowerBound_cases pg k h with ⟨A, B, hs, hl, hA, hB⟩ | ⟨A, r, B, hs, hl, hA, hB⟩
  · refine Or.inl ⟨A, B, hs, hA, hB, ?_⟩
    simp only [IxPage.remove, hl]
    split
    · rfl
    · next hlt =>
      cases B with
      | nil => simp [IxPage.getSize, hs] at hlt
      | cons e B =>
          have hk : pg.getKey A.length = e.1 := by simp [IxPage.getKey, hs]
          rw [hk, if_pos (ne_of_gt (hB e List.mem_cons_self))]
  · refine Or.inr ⟨A, r, B, hs, hA, hB, ?_⟩
    simp only [IxPage.remove, hl]
    rw [if_neg (by simp [IxPage.getSize, hs]), if_neg (by simp [IxPage.getKey, hs])]
    simp [IxPage.erasePair, hs, List.eraseIdx_append_of_length_le]

end

end Rmdb.Index
