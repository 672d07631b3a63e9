import Mathlib

/-!
# Exact decoders

A decoder takes a value off a state or stops with an error.  `At s t` says that the state `s` stands
before the text `t`.  `Exact At Bad p F`: the decoder `p` reads the format `F`, every text of it and
nothing else, and no error it stops with is bad.  A format relates a value to its texts; decoders
one after another read the formats one after another (`Exact.bind`), and so do decoders over a list
(`Exact.mapM`).  `Refuses At p t`: the decoder stops before the text `t`.
-/

namespace Rmdb.Lib

abbrev Decoder (σ ε α : Type) := StateT σ (Except ε) α

abbrev Format (γ α : Type) := α → List γ → Prop

variable {σ ε γ α β : Type}

structure Exact (At : σ → List γ → Prop) (Bad : ε → Prop) (p : Decoder σ ε α) (F : Format γ α) : Prop where
  complete : ∀ s a t rest, At s (t ++ rest) → F a t → ∃ s', p s = .ok (a, s') ∧ At s' rest
  sound : ∀ s u a s', At s u → p s = .ok (a, s') → ∃ t rest, u = t ++ rest ∧ F a t ∧ At s' rest
  safe : ∀ s u e, At s u → p s = .error e → ¬Bad e

/-! ## Formats -/

namespace Format

/-- A value with an empty text. -/
def value (a : α) : Format γ α := fun b t => b = a ∧ t = []

/-- `F` and behind it the format that its value asks for. -/
def andThen (F : Format γ α) (G : α → Format γ β) : Format γ β := fun b t =>
  ∃ a t1 t2, t = t1 ++ t2 ∧ F a t1 ∧ G a b t2

/-- One text after another, each for its element of a list. -/
def each (F : α → Format γ β) : List α → Format γ (List β)
  | [], bs, t => bs = [] ∧ t = []
  | a :: as, bs, t => ∃ b bs' t1 t2, bs = b :: bs' ∧ t = t1 ++ t2 ∧ F a b t1 ∧ each F as bs' t2

end Format

/-! ## Rules -/

section

variable {At : σ → List γ → Prop} {Bad : ε → Prop} {p : Decoder σ ε α} {F G : Format γ α}

theorem Exact.congr (h : Exact At Bad p F) (hFG : ∀ a t, F a t ↔ G a t) : Exact At Bad p G := by
  obtain rfl : F = G := by
    funext a t
    exact propext (hFG a t)
  exact h

theorem exact_pure (a : α) : Exact At Bad (pure a : Decoder σ ε α) (Format.value a) := by
  constructor
  · rintro s b t rest hs ⟨rfl, rfl⟩
    exact ⟨s, rfl, hs⟩
  · intro s u b s' hs h
    cases h
    exact ⟨[], u, rfl, ⟨rfl, rfl⟩, hs⟩
  · intro s u e hs h
    cases h

theorem exact_throw {e : ε} (he : ¬Bad e) : Exact At Bad (throw e : Decoder σ ε α) fun _ _ => False := by
  constructor
  · intro s b t rest hs h
    exact h.elim
  · intro s u b s' hs h
    cases h
  · intro s u e' hs h
    cases h
    exact he

theorem Exact.bind (h : Exact At Bad p F) {q : α → Decoder σ ε β} {G : α → Format γ β}
    (hq : ∀ a t, F a t → Exact At Bad (q a) (G a)) : Exact At Bad (p >>= q) (F.andThen G) := by
  have hbind : ∀ s, (p >>= q) s = (p s).bind fun r => q r.1 r.2 := fun s => rfl
  constructor
  · rintro s b t rest hs ⟨a, t1, t2, rfl, ha, hb⟩
    rw [List.append_assoc] at hs
    obtain ⟨s1, hp, hs1⟩ := h.complete s a t1 (t2 ++ rest) hs ha
    obtain ⟨s2, hq2, hs2⟩ := (hq a t1 ha).complete s1 b t2 rest hs1 hb
    refine ⟨s2, ?_, hs2⟩
    rw [hbind, hp]
    exact hq2
  · intro s u b s' hs hrun
    rw [hbind] at hrun
    cases hp : p s with
    | error e =>
        rw [hp] at hrun
        cases hrun
    | ok r =>
        rw [hp] at hrun
        obtain ⟨t1, u1, rfl, ha, hs1⟩ := h.sound s u r.1 r.2 hs hp
        obtain ⟨t2, u2, rfl, hb, hs2⟩ := (hq r.1 t1 ha).sound r.2 u1 b s' hs1 hrun
        exact ⟨t1 ++ t2, u2, (List.append_assoc t1 t2 u2).symm, ⟨r.1, t1, t2, rfl, ha, hb⟩, hs2⟩
  · intro s u e hs hrun
    rw [hbind] at hrun
    cases hp : p s with
    | error e' =>
        rw [hp] at hrun
        cases hrun
        exact h.safe s u e hs hp
    | ok r =>
        rw [hp] at hrun
        obtain ⟨t1, u1, rfl, ha, hs1⟩ := h.sound s u r.1 r.2 hs hp
        exact (hq r.1 t1 ha).safe r.2 u1 e hs1 hrun

/-- A check that stops the decoder. -/
theorem Exact.unless {c : Prop} [Decidable c] {e : ε} (he : ¬Bad e) (h : ¬c → Exact At Bad p F) :
    Exact At Bad (if c then throw e else p) fun a t => ¬c ∧ F a t := by
  by_cases hc : c
  · rw [if_pos hc]
    exact (exact_throw he).congr fun a t => ⟨fun h => h.elim, fun h => h.1 hc⟩
  · rw [if_neg hc]
    exact (h hc).congr fun a t => ⟨fun h => ⟨hc, h⟩, fun h => h.2⟩

def Refuses (At : σ → List γ → Prop) (p : Decoder σ ε α) (t : List γ) : Prop :=
  ∀ s rest, At s (t ++ rest) → ∃ e, p s = .error e

theorem Refuses.append {t : List γ} (h : Refuses At p t) (u : List γ) : Refuses At p (t ++ u) := by
  intro s rest hs
  rw [List.append_assoc] at hs
  exact h s (u ++ rest) hs

theorem Refuses.bind {t : List γ} (h : Refuses At p t) (q : α → Decoder σ ε β) : Refuses At (p >>= q) t := by
  intro s rest hs
  obtain ⟨e, he⟩ := h s rest hs
  refine ⟨e, ?_⟩
  show (p s).bind _ = _
  rw [he]
  rfl

theorem Exact.bind_refuses (h : Exact At Bad p F) {a : α} {t u : List γ} (ha : F a t) {q : α → Decoder σ ε β}
    (hq : Refuses At (q a) u) : Refuses At (p >>= q) (t ++ u) := by
  intro s rest hs
  rw [List.append_assoc] at hs
  obtain ⟨s1, hp, hs1⟩ := h.complete s a t (u ++ rest) hs ha
  obtain ⟨e, he⟩ := hq s1 rest hs1
  refine ⟨e, ?_⟩
  show (p s).bind _ = _
  rw [hp]
  exact he

theorem Exact.map (h : Exact At Bad p F) (f : α → β) :
    Exact At Bad (f <$> p) fun b t => ∃ a, b = f a ∧ F a t := by
  rw [map_eq_pure_bind]
  refine (h.bind fun a t _ => exact_pure (f a)).congr fun b t => ?_
  constructor
  · rintro ⟨a, t1, t2, rfl, ha, rfl, rfl⟩
    rw [List.append_nil]
    exact ⟨a, rfl, ha⟩
  · rintro ⟨a, rfl, ha⟩
    exact ⟨a, t, [], (List.append_nil t).symm, ha, rfl, rfl⟩

theorem Exact.mapM {q : α → Decoder σ ε β} {F : α → Format γ β} {as : List α}
    (h : ∀ a ∈ as, Exact At Bad (q a) (F a)) : Exact At Bad (as.mapM q) (Format.each F as) := by
  induction as with
  | nil =>
      rw [List.mapM_nil]
      exact exact_pure []
  | cons a as ih =>
      rw [List.mapM_cons]
      have htail := ih fun a' ha' => h a' (List.mem_cons_of_mem _ ha')
      refine ((h a List.mem_cons_self).bind fun b _ _ => htail.bind fun bs _ _ => exact_pure (b :: bs)).congr ?_
      intro bs t
      constructor
      · rintro ⟨b, t1, t2, rfl, hb, bs', t3, t4, rfl, hbs, rfl, rfl⟩
        rw [List.append_nil]
        exact ⟨b, bs', t1, t3, rfl, rfl, hb, hbs⟩
      · rintro ⟨b, bs', t1, t2, rfl, rfl, hb, hbs⟩
        exact ⟨b, t1, t2, rfl, hb, bs', t2, [], (List.append_nil t2).symm, hbs, rfl, rfl⟩

/-- The same format `n` times, where each value has one text. -/
theorem Exact.replicate {ok : α → Prop} {enc : α → List γ} (h : Exact At Bad p fun a t => ok a ∧ t = enc a) (n : Nat) :
    Exact At Bad ((List.range n).mapM fun _ => p) fun as t => as.length = n ∧ (∀ a ∈ as, ok a) ∧ t = as.flatMap enc := by
  refine (Exact.mapM fun _ _ => h).congr ?_
  have hgen : ∀ (is : List Nat) (as : List α) (t : List γ),
      Format.each (fun (_ : Nat) a t => ok a ∧ t = enc a) is as t ↔
        as.length = is.length ∧ (∀ a ∈ as, ok a) ∧ t = as.flatMap enc := by
    intro is
    induction is with
    | nil =>
        intro as t
        constructor
        · rintro ⟨rfl, rfl⟩
          exact ⟨rfl, by simp, rfl⟩
        · rintro ⟨hlen, -, rfl⟩
          obtain rfl := List.length_eq_zero_iff.1 hlen
          exact ⟨rfl, rfl⟩
    | cons i is ih =>
        intro as t
        constructor
        · rintro ⟨a, as', t1, t2, rfl, rfl, ⟨ha, rfl⟩, hrest⟩
          obtain ⟨hlen, hok, rfl⟩ := (ih as' t2).1 hrest
          exact ⟨congrArg (· + 1) hlen, List.forall_mem_cons.2 ⟨ha, hok⟩, rfl⟩
        · rintro ⟨hlen, hok, rfl⟩
          cases as with
          | nil => cases hlen
          | cons a as =>
              obtain ⟨ha, hok⟩ := List.forall_mem_cons.1 hok
              exact ⟨a, as, enc a, as.flatMap enc, rfl, rfl, ⟨ha, rfl⟩, (ih as _).2 ⟨Nat.succ.inj hlen, hok, rfl⟩⟩
  intro as t
  rw [hgen, List.length_range]

end

end Rmdb.Lib
