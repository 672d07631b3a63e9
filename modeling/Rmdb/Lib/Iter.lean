import Mathlib

/-!
# Iterators

An iterator over rows: `start` puts it before the first row, `get` returns the row it is at, `advance` goes on
to the next, `done` says that there is none.  `none` stands for a call that does not return.
`Follows` is the protocol, with the states at each position; an iterator that follows it can be
collected, and collected again (`Yields.collect`).
-/

namespace Rmdb.Lib

variable {σ ρ : Type}

structure Iter (σ ρ : Type) where
  start : σ → Option σ
  advance : σ → Option σ
  done : σ → Bool
  get : σ → Option (ρ × σ)

namespace Iter

/-- The states in which it may be started, and those at each position of `rows`. -/
structure Follows (it : Iter σ ρ) (rows : List ρ) (Live : σ → Prop) (At : Nat → σ → Prop) : Prop where
  live : ∀ i s, At i s → Live s
  start : ∀ s, Live s → ∃ s', it.start s = some s' ∧ At 0 s'
  done : ∀ i s, i ≤ rows.length → At i s → it.done s = decide (rows.length ≤ i)
  get : ∀ i s row, rows[i]? = some row → At i s → ∃ s', it.get s = some (row, s') ∧ At i s'
  advance : ∀ i s, i < rows.length → At i s → ∃ s', it.advance s = some s' ∧ At (i + 1) s'

/-- In state `s` the iterator may be started, and then yields `rows`. -/
def Yields (it : Iter σ ρ) (rows : List ρ) (s : σ) : Prop :=
  ∃ Live At, it.Follows rows Live At ∧ Live s

/-- The loop that takes row after row, at most `fuel` times round. -/
def collectFrom (it : Iter σ ρ) : Nat → σ → Option (List ρ × σ)
  | 0, _ => none
  | fuel + 1, s =>
      if it.done s then some ([], s)
      else
        (it.get s).bind fun p =>
          (it.advance p.2).bind fun s =>
            (it.collectFrom fuel s).map fun q => (p.1 :: q.1, q.2)

def collect (it : Iter σ ρ) (fuel : Nat) (s : σ) : Option (List ρ × σ) :=
  (it.start s).bind fun s => it.collectFrom fuel s

variable {it : Iter σ ρ} {rows : List ρ} {Live : σ → Prop} {At : Nat → σ → Prop}

/-- Whoever takes each row once needs less: in a state of `Fresh i` the row at position `i` has not been
taken yet. -/
structure FollowsOnce (it : Iter σ ρ) (rows : List ρ) (Live : σ → Prop) (At Fresh : Nat → σ → Prop) : Prop where
  position : ∀ i s, Fresh i s → At i s
  live : ∀ i s, At i s → Live s
  start : ∀ s, Live s → ∃ s', it.start s = some s' ∧ Fresh 0 s'
  done : ∀ i s, i ≤ rows.length → At i s → it.done s = decide (rows.length ≤ i)
  get : ∀ i s row, rows[i]? = some row → Fresh i s → ∃ s', it.get s = some (row, s') ∧ At i s'
  advance : ∀ i s, i < rows.length → At i s → ∃ s', it.advance s = some s' ∧ Fresh (i + 1) s'

theorem Follows.once (h : it.Follows rows Live At) : it.FollowsOnce rows Live At At where
  position _ _ hs := hs
  live := h.live
  start := h.start
  done := h.done
  get := h.get
  advance := h.advance

/-- In state `s` the iterator may be started, and then yields `rows` to one that takes each once. -/
def YieldsOnce (it : Iter σ ρ) (rows : List ρ) (s : σ) : Prop :=
  ∃ Live At Fresh, it.FollowsOnce rows Live At Fresh ∧ Live s

theorem Yields.once {s : σ} (h : it.Yields rows s) : it.YieldsOnce rows s := by
  obtain ⟨Live, At, h, hs⟩ := h
  exact ⟨Live, At, At, h.once, hs⟩

theorem FollowsOnce.collectFrom {Fresh : Nat → σ → Prop} (h : it.FollowsOnce rows Live At Fresh) :
    ∀ (fuel i : Nat) (s : σ), Fresh i s → i ≤ rows.length → rows.length - i < fuel →
      ∃ s', it.collectFrom fuel s = some (rows.drop i, s') ∧ At rows.length s' := by
  intro fuel
  induction fuel with
  | zero => intro i s _ _ hfuel; omega
  | succ fuel ih =>
      intro i s hs hi hfuel
      unfold Iter.collectFrom
      rw [h.done i s hi (h.position i s hs)]
      by_cases hend : rows.length ≤ i
      · obtain rfl : i = rows.length := Nat.le_antisymm hi hend
        rw [decide_eq_true le_rfl, if_pos rfl, List.drop_length]
        exact ⟨s, rfl, h.position _ s hs⟩
      · have hlt : i < rows.length := not_le.1 hend
        rw [decide_eq_false hend, if_neg Bool.false_ne_true]
        obtain ⟨s1, hget, hs1⟩ := h.get i s rows[i] (List.getElem?_eq_getElem hlt) hs
        obtain ⟨s2, hadv, hs2⟩ := h.advance i s1 hlt hs1
        obtain ⟨s', hrest, hs'⟩ := ih (i + 1) s2 hs2 hlt (by omega)
        refine ⟨s', ?_, hs'⟩
        rw [hget, Option.bind_some, hadv, Option.bind_some, hrest, List.drop_eq_getElem_cons hlt]
        rfl

theorem FollowsOnce.collect {Fresh : Nat → σ → Prop} (h : it.FollowsOnce rows Live At Fresh) {s : σ} (hs : Live s)
    {fuel : Nat} (hfuel : rows.length < fuel) : ∃ s', it.collect fuel s = some (rows, s') ∧ Live s' := by
  obtain ⟨s0, hstart, h0⟩ := h.start s hs
  obtain ⟨s', hcol, hs'⟩ := h.collectFrom fuel 0 s0 h0 (Nat.zero_le _) hfuel
  refine ⟨s', ?_, h.live _ _ hs'⟩
  unfold Iter.collect
  rw [hstart, Option.bind_some, hcol, List.drop_zero]

theorem YieldsOnce.collect {s : σ} (h : it.YieldsOnce rows s) {fuel : Nat} (hfuel : rows.length < fuel) :
    ∃ s', it.collect fuel s = some (rows, s') ∧ it.YieldsOnce rows s' := by
  obtain ⟨Live, At, Fresh, h, hs⟩ := h
  obtain ⟨s', hcol, hs'⟩ := h.collect hs hfuel
  exact ⟨s', hcol, Live, At, Fresh, h, hs'⟩

/-- All rows are collected, and the iterator may be started again. -/
theorem Yields.collect {s : σ} (h : it.Yields rows s) {fuel : Nat} (hfuel : rows.length < fuel) :
    ∃ s', it.collect fuel s = some (rows, s') ∧ it.Yields rows s' := by
  obtain ⟨Live, At, h, hs⟩ := h
  obtain ⟨s', hcol, hs'⟩ := h.once.collect hs hfuel
  exact ⟨s', hcol, Live, At, h, hs'⟩

/-- The iterator over a list that gives each row away: a state is the rest of the list, and the row at its
front while it is there. -/
def ofList (rows : List ρ) : Iter (List ρ × Option ρ) ρ where
  start _ := some (rows, rows.head?)
  advance s := some (s.1.tail, s.1.tail.head?)
  done s := s.1.isEmpty
  get s := s.2.map fun row => (row, (s.1, none))

theorem ofList_yieldsOnce (rows : List ρ) (s : List ρ × Option ρ) : (ofList rows).YieldsOnce rows s := by
  refine ⟨fun _ => True, fun i s => s.1 = rows.drop i, fun i s => s = (rows.drop i, rows[i]?),
    ⟨?_, ?_, ?_, ?_, ?_, ?_⟩, trivial⟩
  · rintro i s rfl
    rfl
  · exact fun _ _ _ => trivial
  · exact fun _ _ => ⟨_, rfl, congrArg (Prod.mk rows) List.head?_eq_getElem?⟩
  · intro i s _ hs
    show s.1.isEmpty = _
    rw [hs, Bool.eq_iff_iff, List.isEmpty_iff, decide_eq_true_iff, List.drop_eq_nil_iff]
  · rintro i s row hrow rfl
    refine ⟨(rows.drop i, none), ?_, rfl⟩
    show (rows[i]?).map _ = _
    rw [hrow]
    rfl
  · intro i s _ hs
    refine ⟨_, rfl, ?_⟩
    rw [hs, List.tail_drop, List.head?_drop]

end Iter

end Rmdb.Lib
