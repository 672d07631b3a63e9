import Rmdb.Lib.Chase

/-!
# Cycles of a partial successor function

`a` is on a cycle when following successors from `a` leads back to it.  One comes back the
first time after at most as many steps as there are elements with a successor
(`OnCycle.exists_le_card`), and the elements of the cycle are those met on that way
(`mem_cycle_iff`).
-/

namespace Rmdb.Lib

variable {α : Type} {next : α → Option α} {a b : α}

def OnCycle (next : α → Option α) (a : α) : Prop := ∃ n, follow next (n + 1) a = some a

/-- What following successors from `a` leads to: the cycle, if `a` is on one. -/
def cycle (next : α → Option α) (a : α) : Set α := {b | ∃ n, follow next n a = some b}

theorem self_mem_cycle : a ∈ cycle next a := ⟨0, rfl⟩

theorem follow_mod {k : Nat} (hk : follow next k a = some a) (m : Nat) :
    follow next m a = follow next (m % k) a := by
  induction m using Nat.strong_induction_on with
  | _ m ih =>
      rcases Nat.lt_or_ge m k with hlt | hge
      · rw [Nat.mod_eq_of_lt hlt]
      · rcases Nat.eq_zero_or_pos k with rfl | hpos
        · rw [Nat.mod_zero]
        · rw [Nat.mod_eq_sub_mod hge, ← ih (m - k) (by omega)]
          have hsum : follow next (k + (m - k)) a = (follow next k a).bind (follow next (m - k)) :=
            follow_add k (m - k) a
          rw [hk, Nat.add_sub_cancel' hge] at hsum
          exact hsum

/-- Wherever one can go on from, one could go on before. -/
theorem follow_isSome_of_le {m n : Nat} (hmn : m ≤ n) (h : (follow next n a).isSome) :
    (follow next m a).isSome := by
  obtain ⟨k, rfl⟩ := Nat.exists_eq_add_of_le hmn
  rw [follow_add] at h
  cases hm : follow next m a with
  | none => simp [hm] at h
  | some b => rfl

theorem OnCycle.follow_some (h : OnCycle next a) (m : Nat) : ∃ b, follow next m a = some b := by
  obtain ⟨n, hn⟩ := h
  rw [follow_mod hn m]
  refine Option.isSome_iff_exists.1 (follow_isSome_of_le (n := n + 1) ?_ (by rw [hn]; rfl))
  exact (Nat.mod_lt m (Nat.succ_pos n)).le

/-- Every element of the cycle has its successor there. -/
theorem OnCycle.closed (h : OnCycle next a) : Closed next (cycle next a) := by
  rintro b ⟨n, hn⟩
  obtain ⟨c, hc⟩ := h.follow_some (n + 1)
  refine ⟨c, ⟨n + 1, hc⟩, ?_⟩
  rw [follow_succ, hn] at hc
  exact hc

theorem OnCycle.exists_le_card [DecidableEq α] (h : OnCycle next a) {K : Finset α}
    (hK : ∀ b c, next b = some c → b ∈ K) :
    ∃ b n, next a = some b ∧ n ≤ K.card ∧ follow next n b = some a := by
  have hclosed := h.closed
  obtain ⟨b, hb, hab⟩ := hclosed a self_mem_cycle
  have hback : ∃ n, follow next n b = some a := by
    obtain ⟨n, hn⟩ := h
    refine ⟨n, ?_⟩
    rw [Nat.add_comm, follow_add] at hn
    have hone : follow next 1 a = some b := by
      show (next a).bind some = some b
      rw [hab]
      rfl
    rwa [hone] at hn
  classical
  refine ⟨b, Nat.find hback, hab, ?_, Nat.find_spec hback⟩
  refine first_le_card (S := cycle next a) (fun c hc _ => hclosed c hc) hb (fun c hc _ => ?_)
    (Nat.find_spec hback) fun k hk => Nat.find_min hback hk
  obtain ⟨d, -, hd⟩ := hclosed c hc
  exact hK c d hd

theorem mem_cycle_iff {c : α} {n : Nat} (hab : next a = some b) (hn : follow next n b = some a) :
    c ∈ cycle next a ↔ c = a ∨ ∃ m < n, follow next m b = some c := by
  have hsucc : ∀ m, follow next (m + 1) a = follow next m b := by
    intro m
    show (next a).bind (follow next m) = follow next m b
    rw [hab]
    rfl
  have hround : follow next (n + 1) a = some a := (hsucc n).trans hn
  constructor
  · rintro ⟨m, hm⟩
    rw [follow_mod hround] at hm
    have hlt := Nat.mod_lt m (Nat.succ_pos n)
    cases hk : m % (n + 1) with
    | zero =>
        rw [hk] at hm
        exact .inl (Option.some.inj hm).symm
    | succ k =>
        rw [hk] at hm hlt
        exact .inr ⟨k, by omega, (hsucc k).symm.trans hm⟩
  · rintro (rfl | ⟨m, -, hm⟩)
    · exact self_mem_cycle
    · exact ⟨m + 1, (hsucc m).trans hm⟩

end Rmdb.Lib
