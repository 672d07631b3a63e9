import Mathlib

/-!
# Grammars as relations

A nonterminal is a relation between the tokens in front of it, its value and the tokens behind it.  `ListOf`
is the list of yacc, which grows at its right end; `ListOf.cases_head` is its view from the left.  `listLoop`
reads such a list, one item after the other, from a state of its own.  Where the loop and the grammar agree on
the items and on whether the list goes on, they agree on the list (`listLoop_agrees`).
-/

namespace Rmdb.Lib

/-- `X s v r`: the tokens `s` begin with an `X` of value `v`, and `r` are the tokens behind it. -/
abbrev Nonterminal (τ α : Type) := List τ → α → List τ → Prop

section
variable {τ α β σ : Type}

/-- `list: item | list sep item` -/
inductive ListOf (item : Nonterminal τ α) (sep : τ) : Nonterminal τ (List α) where
  | one {s r : List τ} {a : α} (head : item s a r) : ListOf item sep s [a] r
  | more {s t r : List τ} {as : List α} {a : α} (init : ListOf item sep s as (sep :: t)) (last : item t a r) :
      ListOf item sep s (as ++ [a]) r

/-- The first item, and the list behind it. -/
theorem ListOf.cases_head {item : Nonterminal τ α} {sep : τ} {s r : List τ} {as : List α} (h : ListOf item sep s as r) :
    ∃ a t, item s a t ∧ ((as = [a] ∧ r = t) ∨ ∃ u bs, t = sep :: u ∧ as = a :: bs ∧ ListOf item sep u bs r) := by
  induction h with
  | one head => exact ⟨_, _, head, .inl ⟨rfl, rfl⟩⟩
  | more _ last ih =>
      obtain ⟨a, t, hitem, ⟨rfl, rfl⟩ | ⟨u, bs, rfl, rfl, hlist⟩⟩ := ih
      · exact ⟨a, _, hitem, .inr ⟨_, [_], rfl, rfl, .one last⟩⟩
      · exact ⟨a, _, hitem, .inr ⟨u, bs ++ [_], rfl, rfl, .more hlist last⟩⟩

/-- The items under another name. -/
theorem ListOf.map {item : Nonterminal τ α} {item' : Nonterminal τ β} {f : α → β} (hf : ∀ s a r, item s a r → item' s (f a) r)
    {sep : τ} {s r : List τ} {as : List α} (h : ListOf item sep s as r) : ListOf item' sep s (as.map f) r := by
  induction h with
  | one head => exact .one (hf _ _ _ head)
  | more _ last ih =>
      rw [List.map_append]
      exact .more ih (hf _ _ _ last)

theorem ListOf.append {item : Nonterminal τ α} {sep : τ} {s t r : List τ} {as bs : List α} (h1 : ListOf item sep s as (sep :: t))
    (h2 : ListOf item sep t bs r) : ListOf item sep s (as ++ bs) r := by
  induction h2 with
  | one head => exact .more h1 head
  | more _ last ih =>
      rw [← List.append_assoc]
      exact .more (ih h1) last

/-! ## Loops that read lists -/

/-- `item { sep item }`, with as many items as there are rounds; each reads from a state and leaves another. -/
def listLoop (item : σ → Option (α × σ)) (sep : σ → Option σ) : Nat → σ → Option (List α × σ)
  | 0, _ => none
  | n + 1, p =>
    match item p with
    | none => none
    | some (a, p) =>
      match sep p with
      | none => some ([a], p)
      | some p =>
        match listLoop item sep n p with
        | none => none
        | some (as, p) => some (a :: as, p)

variable {item : σ → Option (α × σ)} {sep : σ → Option σ}

/-- A round that ends the list, or goes on. -/
theorem listLoop_cases {n : Nat} {p q : σ} {as : List α} (h : listLoop item sep (n + 1) p = some (as, q)) :
    ∃ a p1, item p = some (a, p1) ∧ ((sep p1 = none ∧ as = [a] ∧ q = p1) ∨
      ∃ p2 bs, sep p1 = some p2 ∧ as = a :: bs ∧ listLoop item sep n p2 = some (bs, q)) := by
  unfold listLoop at h
  cases hitem : item p with
  | none =>
      rw [hitem] at h
      cases h
  | some x =>
      obtain ⟨a, p1⟩ := x
      rw [hitem] at h
      dsimp only at h
      cases hsep : sep p1 with
      | none =>
          rw [hsep] at h
          obtain ⟨rfl, rfl⟩ := Prod.mk.inj (Option.some.inj h)
          exact ⟨a, p1, rfl, .inl ⟨hsep, rfl, rfl⟩⟩
      | some p2 =>
          rw [hsep] at h
          dsimp only at h
          cases hloop : listLoop item sep n p2 with
          | none =>
              rw [hloop] at h
              cases h
          | some y =>
              obtain ⟨bs, q'⟩ := y
              rw [hloop] at h
              obtain ⟨rfl, rfl⟩ := Prod.mk.inj (Option.some.inj h)
              exact ⟨a, p1, rfl, .inr ⟨p2, bs, hsep, rfl, hloop⟩⟩

theorem listLoop_none {p : σ} (h : item p = none) (n : Nat) : listLoop item sep n p = none := by
  cases n with
  | zero => rfl
  | succ n =>
      unfold listLoop
      rw [h]

/-- Where every item takes something from the state, there are rounds enough. -/
theorem listLoop_enough {size : σ → Nat} (hitem : ∀ p a q, item p = some (a, q) → size q < size p)
    (hsep : ∀ p q, sep p = some q → size q ≤ size p) {n m : Nat} {p : σ} (hn : size p ≤ n) (hm : size p ≤ m) :
    listLoop item sep n p = listLoop item sep m p := by
  induction n generalizing m p with
  | zero =>
      have hnone : item p = none := by
        cases h : item p with
        | none => rfl
        | some x =>
            have := hitem p x.1 x.2 h
            omega
      rw [listLoop_none hnone, listLoop_none hnone]
  | succ n ih =>
      cases h : item p with
      | none => rw [listLoop_none h, listLoop_none h]
      | some x =>
          obtain ⟨a, p1⟩ := x
          have h1 := hitem p a p1 h
          obtain ⟨m, rfl⟩ : ∃ k, m = k + 1 := ⟨m - 1, by omega⟩
          unfold listLoop
          rw [h]
          dsimp only
          cases h2 : sep p1 with
          | none => rfl
          | some p2 =>
              have h3 := hsep p1 p2 h2
              have hrest : listLoop item sep n p2 = listLoop item sep m p2 := ih (by omega) (by omega)
              dsimp only
              rw [hrest]

/-- The loop on a state, and the list of the grammar on its tokens.  `Behind` is what may stand behind an item,
`Stops` what may stand behind the list. -/
theorem listLoop_agrees {G : Nonterminal τ β} {sepTok : τ} (toks : σ → List τ) (Ok : σ → Prop) (R : α → β → Prop)
    (Behind Stops : List τ → Prop) (hok : ∀ p a q, Ok p → item p = some (a, q) → Ok q)
    (hitem : ∀ p a q b r, Ok p → item p = some (a, q) → Behind (toks q) → G (toks p) b r → ((∃ u, r = sepTok :: u) ∨ Stops r) →
      R a b ∧ r = toks q)
    (hbehind : ∀ p q, Ok p → sep p = some q → Behind (toks p))
    (hsep : ∀ p q u, Ok p → sep p = some q → toks p = sepTok :: u → u = toks q ∧ Ok q)
    (hnone : ∀ p u, Ok p → sep p = none → toks p ≠ sepTok :: u) (hstop : ∀ p q, Ok p → sep p = some q → ¬ Stops (toks p))
    {n : Nat} {p q : σ} {as : List α} {bs : List β} {r : List τ} (hp : Ok p) (hloop : listLoop item sep n p = some (as, q))
    (hq : Ok q → Behind (toks q)) (hlist : ListOf G sepTok (toks p) bs r) (hr : Stops r) :
    List.Forall₂ R as bs ∧ r = toks q ∧ Ok q := by
  induction n generalizing p as bs with
  | zero => cases hloop
  | succ n ih =>
      obtain ⟨a, p1, hread, hend⟩ := listLoop_cases hloop
      have hp1 := hok p a p1 hp hread
      obtain ⟨b, t, hb, hrest⟩ := hlist.cases_head
      have ht : (∃ u, t = sepTok :: u) ∨ Stops t := by
        rcases hrest with ⟨-, rfl⟩ | ⟨u, -, hu, -⟩
        · exact .inr hr
        · exact .inl ⟨u, hu⟩
      rcases hend with ⟨hnosep, rfl, rfl⟩ | ⟨p2, as', hgo, rfl, hloop'⟩
      · obtain ⟨hab, rfl⟩ := hitem p a q b t hp hread (hq hp1) hb ht
        rcases hrest with ⟨rfl, rfl⟩ | ⟨u, bs', hu, -, -⟩
        · exact ⟨.cons hab .nil, rfl, hp1⟩
        · exact absurd hu (hnone q u hp1 hnosep)
      · obtain ⟨hab, rfl⟩ := hitem p a p1 b t hp hread (hbehind p1 p2 hp1 hgo) hb ht
        rcases hrest with ⟨rfl, rfl⟩ | ⟨u, bs', hu, rfl, hlist'⟩
        · exact absurd hr (hstop p1 p2 hp1 hgo)
        · obtain ⟨rfl, hp2⟩ := hsep p1 p2 u hp1 hgo hu
          obtain ⟨h1, h2, h3⟩ := ih hp2 hloop' hlist'
          exact ⟨.cons hab h1, h2, h3⟩

end

end Rmdb.Lib
