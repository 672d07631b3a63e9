import Mathlib

/-!
# Following a partial successor function

`follow next n a` is the element `n` steps of `next` lead to and `chase next n a` the list of
those met in at most `n`.  In a set in which only `t` may lack a successor one either comes to
`t` within as many steps as there are other elements (`chase_or_closed`), or never, and then
what one meets is a part of the set that `next` does not leave.
-/

namespace Rmdb.Lib

variable {α : Type}

def follow (next : α → Option α) : Nat → α → Option α
  | 0, a => some a
  | n + 1, a => (next a).bind (follow next n)

def chase (next : α → Option α) : Nat → α → List α
  | 0, a => [a]
  | n + 1, a =>
      a :: match next a with
        | none => []
        | some b => chase next n b

/-- Every element of the set has its successor in the set. -/
def Closed (next : α → Option α) (S : Set α) : Prop := ∀ a ∈ S, ∃ b ∈ S, next a = some b

variable {next : α → Option α}

theorem follow_add (m n : Nat) (a : α) :
    follow next (m + n) a = (follow next m a).bind (follow next n) := by
  induction m generalizing a with
  | zero => rw [Nat.zero_add]; rfl
  | succ m ih =>
      rw [Nat.succ_add]
      show (next a).bind (follow next (m + n)) = ((next a).bind (follow next m)).bind (follow next n)
      cases next a with
      | none => rfl
      | some b => exact ih b

theorem follow_succ (n : Nat) (a : α) : follow next (n + 1) a = (follow next n a).bind next := by
  rw [follow_add]
  cases follow next n a with
  | none => rfl
  | some b =>
      show (next b).bind some = next b
      exact Option.bind_fun_some ..

theorem mem_chase {n : Nat} {a b : α} : b ∈ chase next n a ↔ ∃ k ≤ n, follow next k a = some b := by
  induction n generalizing a with
  | zero =>
      unfold chase
      rw [List.mem_singleton]
      constructor
      · rintro rfl
        exact ⟨0, le_rfl, rfl⟩
      · rintro ⟨k, hk, hb⟩
        obtain rfl : k = 0 := by omega
        exact (Option.some.inj hb).symm
  | succ n ih =>
      unfold chase
      rw [List.mem_cons]
      constructor
      · rintro (rfl | hb)
        · exact ⟨0, Nat.zero_le _, rfl⟩
        · cases hn : next a with
          | none => simp [hn] at hb
          | some c =>
              simp only [hn] at hb
              obtain ⟨k, hk, hb⟩ := ih.1 hb
              refine ⟨k + 1, by omega, ?_⟩
              unfold follow
              rw [hn]
              exact hb
      · rintro ⟨k, hk, hb⟩
        cases k with
        | zero => exact .inl (Option.some.inj hb).symm
        | succ k =>
            unfold follow at hb
            obtain ⟨c, hc, hb⟩ := Option.bind_eq_some_iff.1 hb
            simp only [hc]
            exact .inr (ih.2 ⟨k, by omega, hb⟩)

section
variable {S : Set α} {t : α}

/-- One does not leave the set before `t`. -/
theorem follow_mem (hS : ∀ a ∈ S, a ≠ t → ∃ b ∈ S, next a = some b) {a : α} (ha : a ∈ S) :
    ∀ n, (∀ k < n, follow next k a ≠ some t) → ∃ b ∈ S, follow next n a = some b := by
  intro n
  induction n with
  | zero => intro _; exact ⟨a, ha, rfl⟩
  | succ n ih =>
      intro hn
      obtain ⟨b, hb, hfb⟩ := ih fun k hk => hn k (by omega)
      have hbt : b ≠ t := by
        rintro rfl
        exact hn n (by omega) hfb
      obtain ⟨c, hc, hbc⟩ := hS b hb hbt
      refine ⟨c, hc, ?_⟩
      rw [follow_succ, hfb]
      exact hbc

/-- The first way to `t` passes no element twice, so it is no longer than the set. -/
theorem first_le_card [DecidableEq α] (hS : ∀ a ∈ S, a ≠ t → ∃ b ∈ S, next a = some b) {a : α} (ha : a ∈ S)
    {K : Finset α} (hK : ∀ b ∈ S, b ≠ t → b ∈ K) {n : Nat} (hn : follow next n a = some t)
    (hfirst : ∀ k < n, follow next k a ≠ some t) : n ≤ K.card := by
  have hmaps : ∀ k ∈ Finset.range n, follow next k a ∈ K.image some := by
    intro k hk
    rw [Finset.mem_range] at hk
    obtain ⟨b, hb, hfb⟩ := follow_mem hS ha k fun j hj => hfirst j (by omega)
    rw [hfb, Finset.mem_image]
    refine ⟨b, hK b hb ?_, rfl⟩
    rintro rfl
    exact hfirst k hk hfb
  have hskip : ∀ i j, i < j → j < n → follow next i a ≠ follow next j a := by
    intro i j hij hj heq
    refine hfirst (i + (n - j)) (by omega) ?_
    rw [follow_add, heq, ← follow_add, show j + (n - j) = n by omega]
    exact hn
  have hinj : Set.InjOn (fun k => follow next k a) (Finset.range n : Set Nat) := by
    intro i hi j hj heq
    rw [Finset.coe_range, Set.mem_Iio] at hi hj
    rcases Nat.lt_trichotomy i j with h | h | h
    · exact absurd heq (hskip i j h hj)
    · exact h
    · exact absurd heq.symm (hskip j i h hi)
  have hcard := Finset.card_le_card_of_injOn _ hmaps hinj
  rw [Finset.card_range] at hcard
  exact hcard.trans Finset.card_image_le

theorem chase_or_closed [DecidableEq α] (hS : ∀ a ∈ S, a ≠ t → ∃ b ∈ S, next a = some b) {a : α}
    (ha : a ∈ S) {K : Finset α} (hK : ∀ b ∈ S, b ≠ t → b ∈ K) :
    t ∈ chase next K.card a ∨ ∃ S' ⊆ S, S'.Nonempty ∧ t ∉ S' ∧ Closed next S' := by
  by_cases ht : ∃ n, follow next n a = some t
  · left
    classical
    refine mem_chase.2 ⟨Nat.find ht, ?_, Nat.find_spec ht⟩
    exact first_le_card hS ha hK (Nat.find_spec ht) fun k hk => Nat.find_min ht hk
  · right
    have hmem : ∀ n, ∃ b ∈ S, follow next n a = some b := fun n =>
      follow_mem hS ha n fun k _ hk => ht ⟨k, hk⟩
    refine ⟨{b | ∃ n, follow next n a = some b}, ?_, ⟨a, 0, rfl⟩, ht, ?_⟩
    · rintro b ⟨n, hb⟩
      obtain ⟨c, hc, hcb⟩ := hmem n
      obtain rfl : c = b := Option.some.inj (hcb.symm.trans hb)
      exact hc
    · rintro b ⟨n, hb⟩
      obtain ⟨c, -, hc⟩ := hmem (n + 1)
      refine ⟨c, ⟨n + 1, hc⟩, ?_⟩
      rw [follow_succ, hb] at hc
      exact hc

/-- All one meets is in the set, if `t` has no successor. -/
theorem chase_subset (hS : ∀ a ∈ S, a ≠ t → ∃ b ∈ S, next a = some b) (ht : next t = none) :
    ∀ (n : Nat) (a : α), a ∈ S → ∀ b ∈ chase next n a, b ∈ S := by
  intro n
  induction n with
  | zero =>
      intro a ha b hb
      unfold chase at hb
      rw [List.mem_singleton] at hb
      exact hb ▸ ha
  | succ n ih =>
      intro a ha b hb
      unfold chase at hb
      rcases List.mem_cons.1 hb with rfl | hb
      · exact ha
      · by_cases hat : a = t
        · rw [hat, ht] at hb
          cases hb
        · obtain ⟨c, hc, hac⟩ := hS a ha hat
          simp only [hac] at hb
          exact ih c hc b hb

end

end Rmdb.Lib
