import Mathlib

/-!
# Stable sorting

`stableSort before xs` sorts by a strict comparison and keeps the order of elements of which neither is
before the other.  Where the comparison is that of a key, the result is the one list that has the elements
of `xs`, keys that do not decrease, and for every key the elements in the order of `xs`
(`StableSorted.unique`).
-/

namespace Rmdb.Lib

variable {α κ : Type*}

def stableSort (before : α → α → Bool) (xs : List α) : List α := xs.insertionSort fun a b => before b a = false

/-- `ys` is `xs` in the order of the keys `f`. -/
structure StableSorted [LinearOrder κ] (f : α → κ) (xs ys : List α) : Prop where
  perm : ys.Perm xs
  sorted : ys.Pairwise fun a b => f a ≤ f b
  stable : ∀ k, (ys.filter fun a => decide (f a = k)) = xs.filter fun a => decide (f a = k)

variable [LinearOrder κ] {f : α → κ} {xs ys zs : List α}

theorem StableSorted.unique (hy : StableSorted f xs ys) (hz : StableSorted f xs zs) : ys = zs := by
  have hsame : ∀ k, (ys.filter fun a => decide (f a = k)) = zs.filter fun a => decide (f a = k) :=
    fun k => (hy.stable k).trans (hz.stable k).symm
  have hys := hy.sorted
  have hzs := hz.sorted
  clear hy hz
  induction ys generalizing zs with
  | nil =>
      cases zs with
      | nil => rfl
      | cons z zs =>
          have h := hsame (f z)
          rw [List.filter_nil, List.filter_cons_of_pos (by simp)] at h
          cases h
  | cons y ys ih =>
      cases zs with
      | nil =>
          have h := hsame (f y)
          rw [List.filter_nil, List.filter_cons_of_pos (by simp)] at h
          cases h
      | cons z zs =>
          rw [List.pairwise_cons] at hys hzs
          -- the first keys are the least ones of both lists, so they are one key
          have hmem : ∀ {a b : α} {as bs : List α}, (∀ x ∈ bs, f b ≤ f x) →
              (((a :: as).filter fun x => decide (f x = f a)) = (b :: bs).filter fun x => decide (f x = f a)) →
                f b ≤ f a := by
            intro a b as bs hleast h
            rw [List.filter_cons_of_pos (by simp)] at h
            have ha : a ∈ (b :: bs).filter fun x => decide (f x = f a) := h ▸ List.mem_cons_self
            rcases List.mem_cons.1 (List.mem_filter.1 ha).1 with rfl | hin
            · exact le_rfl
            · exact hleast a hin
          have hkey : f y = f z := le_antisymm (hmem hys.1 (hsame (f z)).symm) (hmem hzs.1 (hsame (f y)))
          have hhead := hsame (f y)
          rw [List.filter_cons_of_pos (by simp), List.filter_cons_of_pos (by simp [hkey])] at hhead
          obtain rfl : y = z := (List.cons.inj hhead).1
          rw [ih (fun k => ?_) hys.2 hzs.2]
          have h := hsame k
          by_cases hk : f y = k
          · rw [List.filter_cons_of_pos (by simp [hk]), List.filter_cons_of_pos (by simp [hk])] at h
            exact (List.cons.inj h).2
          · rw [List.filter_cons_of_neg (by simp [hk]), List.filter_cons_of_neg (by simp [hk])] at h
            exact h

theorem stableSorted_insertionSort (f : α → κ) (xs : List α) :
    StableSorted f xs (xs.insertionSort fun a b => f a ≤ f b) := by
  have htrans : IsTrans α fun a b => f a ≤ f b := ⟨fun _ _ _ => le_trans⟩
  have htotal : Std.Total fun a b : α => f a ≤ f b := ⟨fun a b => le_total (f a) (f b)⟩
  have hperm := List.perm_insertionSort (fun a b => f a ≤ f b) xs
  refine ⟨hperm, List.pairwise_insertionSort _ xs, fun k => ?_⟩
  -- the elements with key `k` are sorted as they stand, so they are a sublist of the result
  have htie : (xs.filter fun a => decide (f a = k)).Pairwise fun a b => f a ≤ f b := by
    refine List.pairwise_of_forall_mem_list fun a ha b hb => ?_
    have h1 := of_decide_eq_true (List.mem_filter.1 ha).2
    have h2 := of_decide_eq_true (List.mem_filter.1 hb).2
    exact (h1.trans h2.symm).le
  have hsub := (List.sublist_insertionSort htie List.filter_sublist).filter fun a => decide (f a = k)
  rw [List.filter_filter] at hsub
  simp only [Bool.and_self] at hsub
  exact (hsub.eq_of_length (hperm.filter _).length_eq.symm).symm

theorem stableSort_perm (before : α → α → Bool) (xs : List α) : (stableSort before xs).Perm xs := List.perm_insertionSort _ xs

/-- Where the comparison is that of the keys. -/
theorem stableSort_sorted {before : α → α → Bool} (h : ∀ a ∈ xs, ∀ b ∈ xs, (before a b = true ↔ f a < f b)) :
    StableSorted f xs (stableSort before xs) := by
  have hmap := List.map_insertionSort (fun a b => before b a = false) (fun a b => f a ≤ f b) id xs fun a ha b hb => by
    rw [← Bool.not_eq_true, h b hb a ha, not_lt]
    rfl
  rw [List.map_id, List.map_id] at hmap
  unfold stableSort
  rw [hmap]
  exact stableSorted_insertionSort f xs

end Rmdb.Lib
