import Mathlib

/-!
# Runs of positions, merged across short gaps

A range is a pair of a start and an end that is not part of it.  `mergeRuns gap` joins ranges of a
list with fewer than `gap` positions between them, and `runs gap ps` makes the ranges of a list
of positions in this way.  `runs 1` are the maximal runs (`mem_runs_one`), and merging these gives
`runs gap` (`mergeRuns_runs`).  The ranges of `runs gap` are apart by `gap` at least and cover
exactly the positions up to gaps shorter than that (`runs_spread`, `runs_cover`).
-/

namespace Rmdb.Lib

/-- The list with `r` before it, joined as far as the gaps are short. -/
def mergeInto (gap : Nat) (r : Nat × Nat) : List (Nat × Nat) → List (Nat × Nat)
  | [] => [r]
  | r' :: rs => if r'.1 < r.2 + gap then mergeInto gap (r.1, r'.2) rs else r :: mergeInto gap r' rs

def mergeRuns (gap : Nat) : List (Nat × Nat) → List (Nat × Nat)
  | [] => []
  | r :: rs => mergeInto gap r rs

/-- The range of one position. -/
def single (p : Nat) : Nat × Nat := (p, p + 1)

def runs (gap : Nat) (ps : List Nat) : List (Nat × Nat) := mergeRuns gap (ps.map single)

variable {gap : Nat}

theorem mergeInto_near {s e p : Nat} (h : p < e + gap) (rs : List (Nat × Nat)) :
    mergeInto gap (s, e) (single p :: rs) = mergeInto gap (s, p + 1) rs := if_pos h

theorem mergeInto_far {s e p : Nat} (h : e + gap ≤ p) (rs : List (Nat × Nat)) :
    mergeInto gap (s, e) (single p :: rs) = (s, e) :: mergeInto gap (single p) rs := if_neg (not_lt.2 h)

theorem mergeInto_mergeInto {g : Nat} (hg : g ≤ gap) (r r' : Nat × Nat) (rs : List (Nat × Nat)) :
    mergeInto gap r (mergeInto g r' rs) = mergeInto gap r (r' :: rs) := by
  induction rs generalizing r r' with
  | nil => rfl
  | cons r'' rs ih =>
      by_cases hnear : r''.1 < r'.2 + g
      · have hnear' : r''.1 < r'.2 + gap := by omega
        rw [mergeInto, if_pos hnear, ih]
        by_cases hfirst : r'.1 < r.2 + gap
        · simp only [mergeInto, if_pos hfirst, if_pos hnear']
        · simp only [mergeInto, if_neg hfirst, if_pos hnear']
      · rw [show mergeInto g r' (r'' :: rs) = r' :: mergeInto g r'' rs from if_neg hnear]
        by_cases hfirst : r'.1 < r.2 + gap
        · simp only [mergeInto, if_pos hfirst]
          exact ih _ _
        · simp only [mergeInto, if_neg hfirst]
          exact congrArg _ (ih _ _)

/-- Merging ranges that are merged across shorter gaps already. -/
theorem mergeRuns_runs {g : Nat} (hg : g ≤ gap) (ps : List Nat) : mergeRuns gap (runs g ps) = runs gap ps := by
  cases ps with
  | nil => rfl
  | cons p ps =>
      show mergeRuns gap (mergeInto g (single p) (ps.map single)) = mergeInto gap (single p) (ps.map single)
      generalize ps.map single = rs
      generalize single p = r
      induction rs generalizing r with
      | nil => rfl
      | cons r' rs ih =>
          by_cases hnear : r'.1 < r.2 + g
          · have hnear' : r'.1 < r.2 + gap := by omega
            simp only [mergeInto, if_pos hnear, if_pos hnear']
            exact ih _
          · rw [show mergeInto g r (r' :: rs) = r :: mergeInto g r' rs from if_neg hnear]
            exact mergeInto_mergeInto hg r r' rs

/-! ## Ranges of increasing positions -/

/-- Ranges one after another with `gap` positions or more between them, none empty. -/
def Spread (gap : Nat) (rs : List (Nat × Nat)) : Prop :=
  (∀ r ∈ rs, r.1 < r.2) ∧ rs.Pairwise fun r r' => r.2 + gap ≤ r'.1

/-- The ranges made from `s` to `e` and the increasing positions behind `e`. -/
theorem mergeInto_spread {ps : List Nat} {s e : Nat} (hse : s < e) (hsorted : ps.Pairwise (· < ·))
    (hps : ∀ p ∈ ps, e ≤ p) : Spread gap (mergeInto gap (s, e) (ps.map single)) ∧
      (∀ r ∈ mergeInto gap (s, e) (ps.map single), s ≤ r.1) ∧
      (∃ t, e ≤ t ∧ (s, t) ∈ mergeInto gap (s, e) (ps.map single)) := by
  induction ps generalizing s e with
  | nil =>
      refine ⟨⟨?_, List.pairwise_singleton ..⟩, ?_, e, le_rfl, List.mem_cons_self⟩
      · intro r hr
        rw [List.mem_singleton.1 hr]
        exact hse
      · intro r hr
        rw [List.mem_singleton.1 hr]
  | cons p ps ih =>
      obtain ⟨hp, hsorted⟩ := List.pairwise_cons.1 hsorted
      have hep := hps p List.mem_cons_self
      rw [List.map_cons]
      rcases Nat.lt_or_ge p (e + gap) with hnear | hfar
      · rw [mergeInto_near hnear]
        obtain ⟨hspread, hlow, t, ht, hmem⟩ := ih (s := s) (e := p + 1) (by omega) hsorted hp
        exact ⟨hspread, hlow, t, by omega, hmem⟩
      · rw [mergeInto_far hfar]
        obtain ⟨⟨hpos, hpair⟩, hlow, -⟩ := ih (s := p) (e := p + 1) (by omega) hsorted hp
        refine ⟨⟨?_, List.pairwise_cons.2 ⟨?_, hpair⟩⟩, ?_, e, le_rfl, List.mem_cons_self⟩
        · intro r hr
          rcases List.mem_cons.1 hr with rfl | hr
          · exact hse
          · exact hpos r hr
        · intro r hr
          exact hfar.trans (hlow r hr)
        · intro r hr
          rcases List.mem_cons.1 hr with rfl | hr
          · exact le_rfl
          · have := hlow r hr
            omega

/-- A position is in the ranges exactly when it is one of the first range or comes from a position
of the list, or from a short gap between two. -/
theorem mergeInto_cover {ps : List Nat} {s e p : Nat} (hse : s < e) (hsorted : ps.Pairwise (· < ·))
    (hps : ∀ q ∈ ps, e ≤ q) (hp : (s ≤ p ∧ p < e) ∨ p ∈ ps) :
    ∃ r ∈ mergeInto gap (s, e) (ps.map single), r.1 ≤ p ∧ p < r.2 := by
  induction ps generalizing s e with
  | nil =>
      rcases hp with hp | hp
      · exact ⟨(s, e), List.mem_cons_self, hp⟩
      · cases hp
  | cons q ps ih =>
      obtain ⟨hq, hsorted⟩ := List.pairwise_cons.1 hsorted
      have heq := hps q List.mem_cons_self
      rw [List.map_cons]
      rcases Nat.lt_or_ge q (e + gap) with hnear | hfar
      · rw [mergeInto_near hnear]
        refine ih (s := s) (e := q + 1) (by omega) hsorted hq ?_
        rcases hp with hp | hp
        · exact .inl ⟨hp.1, by omega⟩
        · rcases List.mem_cons.1 hp with rfl | hp
          · exact .inl ⟨by omega, by omega⟩
          · exact .inr hp
      · rw [mergeInto_far hfar]
        rcases hp with hp | hp
        · exact ⟨(s, e), List.mem_cons_self, hp⟩
        · obtain ⟨r, hr, hin⟩ := ih (s := q) (e := q + 1) (by omega) hsorted hq <| by
            rcases List.mem_cons.1 hp with rfl | hp
            · exact .inl ⟨le_rfl, by omega⟩
            · exact .inr hp
          exact ⟨r, List.mem_cons_of_mem _ hr, hin⟩

/-- The ends are those of the first range and of the positions. -/
theorem mergeInto_stop {ps : List Nat} {s e : Nat} {r : Nat × Nat}
    (hr : r ∈ mergeInto gap (s, e) (ps.map single)) : r.2 = e ∨ ∃ p ∈ ps, r.2 = p + 1 := by
  induction ps generalizing s e with
  | nil => exact .inl (congrArg Prod.snd (List.mem_singleton.1 hr))
  | cons p ps ih =>
      have hlater : r.2 = p + 1 ∨ (∃ q ∈ ps, r.2 = q + 1) → ∃ q ∈ p :: ps, r.2 = q + 1 := by
        rintro (h | ⟨q, hq, h⟩)
        · exact ⟨p, List.mem_cons_self, h⟩
        · exact ⟨q, List.mem_cons_of_mem _ hq, h⟩
      rw [List.map_cons] at hr
      rcases Nat.lt_or_ge p (e + gap) with hnear | hfar
      · rw [mergeInto_near hnear] at hr
        exact .inr (hlater (ih hr))
      · rw [mergeInto_far hfar] at hr
        rcases List.mem_cons.1 hr with rfl | hr
        · exact .inl rfl
        · exact .inr (hlater (ih hr))

section
variable {ps : List Nat}

theorem runs_stop {r : Nat × Nat} (hr : r ∈ runs gap ps) : ∃ p ∈ ps, r.2 = p + 1 := by
  cases ps with
  | nil => cases hr
  | cons p ps =>
      rcases mergeInto_stop hr with h | ⟨q, hq, h⟩
      · exact ⟨p, List.mem_cons_self, h⟩
      · exact ⟨q, List.mem_cons_of_mem _ hq, h⟩

theorem runs_spread (hsorted : ps.Pairwise (· < ·)) : Spread gap (runs gap ps) := by
  cases ps with
  | nil => exact ⟨fun r hr => (by cases hr), List.Pairwise.nil⟩
  | cons p ps =>
      obtain ⟨hp, hsorted⟩ := List.pairwise_cons.1 hsorted
      exact (mergeInto_spread (Nat.lt_succ_self p) hsorted hp).1

theorem runs_cover (hsorted : ps.Pairwise (· < ·)) {p : Nat} (hp : p ∈ ps) :
    ∃ r ∈ runs gap ps, r.1 ≤ p ∧ p < r.2 := by
  cases ps with
  | nil => cases hp
  | cons q ps =>
      obtain ⟨hq, hsorted⟩ := List.pairwise_cons.1 hsorted
      refine mergeInto_cover (Nat.lt_succ_self q) hsorted hq ?_
      rcases List.mem_cons.1 hp with rfl | hp
      · exact .inl ⟨le_rfl, Nat.lt_succ_self _⟩
      · exact .inr hp

theorem runs_eq_nil_iff : runs gap ps = [] ↔ ps = [] := by
  cases ps with
  | nil => exact ⟨fun _ => rfl, fun _ => rfl⟩
  | cons p ps =>
      refine ⟨fun h => ?_, fun h => (by cases h)⟩
      have hne : ∀ (rs : List (Nat × Nat)) (r : Nat × Nat), mergeInto gap r rs ≠ [] := by
        intro rs
        induction rs with
        | nil => intro r hc; cases hc
        | cons r' rs ih =>
            intro r
            rw [mergeInto]
            split
            · exact ih _
            · exact List.cons_ne_nil _ _
      exact absurd h (hne _ _)

end

/-! ## Maximal runs -/

/-- All of `S` from `r.1` to `r.2`, and nothing of it next to that on either side. -/
structure MaxRun (S : Nat → Prop) (r : Nat × Nat) : Prop where
  pos : r.1 < r.2
  mem : ∀ i, r.1 ≤ i → i < r.2 → S i
  stop : ¬ S r.2
  start : ∀ i, i + 1 = r.1 → ¬ S i

theorem MaxRun.congr {S T : Nat → Prop} (h : ∀ i, S i ↔ T i) {r : Nat × Nat} (hr : MaxRun S r) : MaxRun T r where
  pos := hr.pos
  mem i h1 h2 := (h i).1 (hr.mem i h1 h2)
  stop hc := hr.stop ((h _).2 hc)
  start i hi hc := hr.start i hi ((h i).2 hc)

/-- A block and what lies apart behind it. -/
theorem maxRun_block {S : Nat → Prop} {s e : Nat} (hse : s < e) (hS : ∀ i, S i → e < i) (r : Nat × Nat) :
    MaxRun (fun i => (s ≤ i ∧ i < e) ∨ S i) r ↔ r = (s, e) ∨ MaxRun S r := by
  constructor
  · intro h
    by_cases hfirst : r.1 < e
    · -- a run that begins in the block is the block
      left
      have hs : s ≤ r.1 := by
        rcases h.mem r.1 le_rfl h.pos with hin | hin
        · exact hin.1
        · have := hS _ hin
          omega
      have h1 : r.1 = s := by
        by_contra hne
        exact h.start (r.1 - 1) (by omega) (.inl ⟨by omega, by omega⟩)
      have h2 : r.2 = e := by
        rcases Nat.lt_trichotomy r.2 e with hlt | heq | hgt
        · have hpos := h.pos
          exact absurd (.inl ⟨by omega, hlt⟩) h.stop
        · exact heq
        · rcases h.mem e (by omega) hgt with hin | hin
          · omega
          · exact absurd (hS e hin) (lt_irrefl e)
      exact Prod.ext h1 h2
    · right
      refine ⟨h.pos, fun i hi hi' => ?_, fun hc => h.stop (.inr hc), fun i hi hc => h.start i hi (.inr hc)⟩
      rcases h.mem i hi hi' with hin | hin
      · omega
      · exact hin
  · rintro (rfl | h)
    · refine ⟨hse, fun i hi hi' => .inl ⟨hi, hi'⟩, ?_, ?_⟩
      · rintro (hin | hin)
        · exact absurd hin.2 (lt_irrefl _)
        · exact absurd (hS _ hin) (lt_irrefl _)
      · intro i hi
        rintro (hin | hin)
        · have : i + 1 = s := hi
          omega
        · have : i + 1 = s := hi
          have := hS _ hin
          omega
    · have hlow := hS _ (h.mem r.1 le_rfl h.pos)
      refine ⟨h.pos, fun i hi hi' => .inr (h.mem i hi hi'), ?_, ?_⟩
      · rintro (hin | hin)
        · have := h.pos
          omega
        · exact h.stop hin
      · intro i hi
        rintro (hin | hin)
        · omega
        · exact h.start i hi hin

theorem mem_mergeInto_one {ps : List Nat} {s e : Nat} (hse : s < e) (hsorted : ps.Pairwise (· < ·))
    (hps : ∀ p ∈ ps, e ≤ p) (r : Nat × Nat) :
    r ∈ mergeInto 1 (s, e) (ps.map single) ↔ MaxRun (fun i => (s ≤ i ∧ i < e) ∨ i ∈ ps) r := by
  induction ps generalizing s e with
  | nil =>
      rw [maxRun_block hse (fun i hi => (by cases hi)) r]
      constructor
      · intro hr
        exact .inl (List.mem_singleton.1 hr)
      · rintro (rfl | h)
        · exact List.mem_cons_self
        · exact absurd (h.mem r.1 le_rfl h.pos) List.not_mem_nil
  | cons p ps ih =>
      obtain ⟨hp, hsorted⟩ := List.pairwise_cons.1 hsorted
      have hep := hps p List.mem_cons_self
      rw [List.map_cons]
      rcases Nat.lt_or_ge p (e + 1) with hnear | hfar
      · rw [mergeInto_near hnear]
        obtain rfl : p = e := by omega
        rw [ih (by omega) hsorted hp]
        have hiff : ∀ i, ((s ≤ i ∧ i < p + 1) ∨ i ∈ ps) ↔ ((s ≤ i ∧ i < p) ∨ i ∈ p :: ps) := by
          intro i
          rw [List.mem_cons]
          constructor
          · rintro (hin | hin)
            · rcases Nat.lt_or_ge i p with hlt | hge
              · exact .inl ⟨hin.1, hlt⟩
              · exact .inr (.inl (by omega))
            · exact .inr (.inr hin)
          · rintro (hin | rfl | hin)
            · exact .inl ⟨hin.1, by omega⟩
            · exact .inl ⟨by omega, by omega⟩
            · exact .inr hin
        exact ⟨fun h => h.congr hiff, fun h => h.congr fun i => (hiff i).symm⟩
      · rw [mergeInto_far hfar, List.mem_cons]
        have hbehind : ∀ i, i ∈ p :: ps → e < i := by
          intro i hi
          rcases List.mem_cons.1 hi with rfl | hi
          · exact hfar
          · have := hp i hi
            omega
        rw [maxRun_block hse hbehind r]
        show r = (s, e) ∨ r ∈ mergeInto 1 (p, p + 1) (ps.map single) ↔ _
        rw [ih (Nat.lt_succ_self p) hsorted hp]
        have hiff : ∀ i, ((p ≤ i ∧ i < p + 1) ∨ i ∈ ps) ↔ i ∈ p :: ps := by
          intro i
          rw [List.mem_cons]
          exact or_congr_left (by omega)
        exact or_congr_right ⟨fun h => h.congr hiff, fun h => h.congr fun i => (hiff i).symm⟩

/-- The ranges of `runs 1` are the maximal runs of the positions. -/
theorem mem_runs_one {ps : List Nat} (hsorted : ps.Pairwise (· < ·)) (r : Nat × Nat) :
    r ∈ runs 1 ps ↔ MaxRun (· ∈ ps) r := by
  cases ps with
  | nil =>
      refine ⟨fun h => (by cases h), fun h => ?_⟩
      exact absurd (h.mem r.1 le_rfl h.pos) List.not_mem_nil
  | cons p ps =>
      obtain ⟨hp, hsorted⟩ := List.pairwise_cons.1 hsorted
      have hone := mem_mergeInto_one (Nat.lt_succ_self p) hsorted hp r
      have hiff : ∀ i, ((p ≤ i ∧ i < p + 1) ∨ i ∈ ps) ↔ i ∈ p :: ps := by
        intro i
        rw [List.mem_cons]
        exact or_congr_left (by omega)
      exact hone.trans ⟨fun h => h.congr hiff, fun h => h.congr fun i => (hiff i).symm⟩

end Rmdb.Lib
