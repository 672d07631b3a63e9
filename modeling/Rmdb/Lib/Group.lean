import Mathlib

/-!
# Grouping a list in one pass

`pushNew` collects the elements of a list in order of first appearance (`foldl_pushNew`),
`Groups.add` sorts them under their keys with an accumulator for each key (`foldl_add`): the
order is the keys as they first appear, and the accumulator of a key has folded the elements
with that key.  `keep` holds on to the best element so far, the first one that no element
beats (`foldl_keep`).
-/

namespace Rmdb.Lib

variable {α κ σ : Type}

/-! ## First appearances -/

section Firsts

variable [BEq κ] [LawfulBEq κ]

theorem eraseDups_concat (xs : List κ) (x : κ) :
    (xs ++ [x]).eraseDups = if x ∈ xs then xs.eraseDups else xs.eraseDups ++ [x] := by
  rw [List.eraseDups_append]
  by_cases h : x ∈ xs
  · rw [if_pos h]
    have hnone : [x].removeAll xs = [] := by simp [List.removeAll, h]
    rw [hnone, List.eraseDups_nil, List.append_nil]
  · rw [if_neg h]
    have hone : [x].removeAll xs = [x] := by simp [List.removeAll, h]
    rw [hone]
    rfl

theorem nodup_eraseDups (xs : List κ) : xs.eraseDups.Nodup := by
  induction xs using List.reverseRecOn with
  | nil => simp
  | append_singleton xs x ih =>
      rw [eraseDups_concat]
      by_cases h : x ∈ xs
      · rwa [if_pos h]
      · rw [if_neg h, List.nodup_append]
        refine ⟨ih, by simp, ?_⟩
        intro y hy z hz
        rw [List.mem_singleton] at hz
        rintro rfl
        subst hz
        exact h (List.mem_eraseDups.1 hy)

def pushNew (seen : List κ) (x : κ) : List κ := if x ∈ seen then seen else seen ++ [x]

theorem foldl_pushNew (xs : List κ) : xs.foldl pushNew [] = xs.eraseDups := by
  induction xs using List.reverseRecOn with
  | nil => rfl
  | append_singleton xs x ih =>
      rw [List.foldl_append, ih, eraseDups_concat]
      simp only [List.foldl_cons, List.foldl_nil, pushNew, List.mem_eraseDups]

/-- Keys that tell the same elements apart first appear at the same places. -/
theorem map_eraseDups_of_inj {β : Type} [BEq β] [LawfulBEq β] (f : κ → β) {xs : List κ}
    (h : ∀ x ∈ xs, ∀ y ∈ xs, f x = f y → x = y) : (xs.map f).eraseDups = xs.eraseDups.map f := by
  induction xs using List.reverseRecOn with
  | nil => rfl
  | append_singleton xs x ih =>
      have hsub : ∀ y ∈ xs, y ∈ xs ++ [x] := fun y hy => List.mem_append_left _ hy
      have ih := ih fun a ha b hb => h a (hsub a ha) b (hsub b hb)
      have hmem : f x ∈ xs.map f ↔ x ∈ xs := by
        constructor
        · intro hx
          obtain ⟨y, hy, hfy⟩ := List.mem_map.1 hx
          rwa [← h y (hsub y hy) x (by simp) hfy]
        · exact List.mem_map_of_mem
      rw [List.map_append, List.map_singleton, eraseDups_concat, eraseDups_concat, ih]
      by_cases hx : x ∈ xs
      · rw [if_pos hx, if_pos (hmem.2 hx)]
      · rw [if_neg hx, if_neg (mt hmem.1 hx), List.map_append, List.map_singleton]

end Firsts

/-! ## Accumulators under keys -/

/-- The keys in order of first appearance, and the accumulator of each. -/
structure Groups (κ σ : Type) where
  order : List κ
  get : κ → Option σ

namespace Groups

def empty : Groups κ σ := ⟨[], fun _ => none⟩

section Add

variable [DecidableEq κ]

/-- The accumulator of the key of `x` takes `x` in; a new key starts from `init`. -/
def add (key : α → κ) (init : σ) (upd : σ → α → σ) (g : Groups κ σ) (x : α) : Groups κ σ :=
  match g.get (key x) with
  | none => ⟨g.order ++ [key x], Function.update g.get (key x) (some (upd init x))⟩
  | some s => ⟨g.order, Function.update g.get (key x) (some (upd s x))⟩

variable [BEq κ] [LawfulBEq κ]

/-- What the accumulator of `k` holds once `xs` have been taken in. -/
def held (key : α → κ) (init : σ) (upd : σ → α → σ) (xs : List α) (k : κ) : Option σ :=
  if k ∈ xs.map key then some ((xs.filter fun x => key x = k).foldl upd init) else none

theorem held_concat (key : α → κ) (init : σ) (upd : σ → α → σ) (xs : List α) (x : α) :
    held key init upd (xs ++ [x]) = Function.update (held key init upd xs) (key x)
      (some (upd ((xs.filter fun y => key y = key x).foldl upd init) x)) := by
  funext k
  by_cases hk : k = key x
  · subst hk
    rw [Function.update_self]
    simp [held]
  · have hk' : ¬ key x = k := fun h => hk h.symm
    rw [Function.update_of_ne hk]
    simp [held, hk, hk']

theorem foldl_add (key : α → κ) (init : σ) (upd : σ → α → σ) (xs : List α) :
    xs.foldl (add key init upd) empty = ⟨(xs.map key).eraseDups, held key init upd xs⟩ := by
  induction xs using List.reverseRecOn with
  | nil =>
      have hnone : held key init upd [] = fun _ => none := by
        funext k
        exact if_neg (by simp)
      rw [hnone]
      rfl
  | append_singleton xs x ih =>
      rw [List.foldl_append, ih, List.map_append, List.map_singleton, eraseDups_concat, held_concat]
      simp only [List.foldl_cons, List.foldl_nil, add]
      by_cases hx : key x ∈ xs.map key
      · have hold : held key init upd xs (key x) =
            some ((xs.filter fun y => key y = key x).foldl upd init) := if_pos hx
        rw [hold, if_pos hx]
      · have hold : held key init upd xs (key x) = none := if_neg hx
        have hnone : (xs.filter fun y => key y = key x) = [] := by
          rw [List.filter_eq_nil_iff]
          intro y hy hyx
          exact hx (List.mem_map.2 ⟨y, hy, of_decide_eq_true hyx⟩)
        rw [hold, if_neg hx, hnone]
        rfl

end Add

end Groups

/-! ## The best element so far -/

section Best

variable (better : α → α → Bool)

def keep (m : Option α) (x : α) : Option α :=
  match m with
  | none => some x
  | some m => if better x m then some x else some m

theorem keep_some (m x : α) : keep better (some m) x = some (if better x m then x else m) := by
  show (if better x m then some x else some m) = _
  by_cases h : better x m = true
  · rw [if_pos h, if_pos h]
  · rw [if_neg h, if_neg h]

/-- The first element that no element beats. -/
def best (xs : List α) : Option α := xs.find? fun m => xs.all fun x => !better x m

theorem best_map {β : Type} (f : β → α) (xs : List β) :
    best better (xs.map f) = (best (fun x m => better (f x) (f m)) xs).map f := by
  unfold best
  rw [List.find?_map]
  congr 2
  funext m
  rw [Function.comp_apply, List.all_map]
  rfl

/-- `better` orders the elements by rank. -/
structure Ranks : Prop where
  asymm : ∀ a b, better a b = true → better b a = false
  trans : ∀ a b c, better a b = false → better b c = false → better a c = false

variable {better}

theorem best_eq_some_iff {xs : List α} {m : α} : best better xs = some m ↔
    (∀ x ∈ xs, better x m = false) ∧
      ∃ as bs, xs = as ++ m :: bs ∧ ∀ a ∈ as, ∃ x ∈ xs, better x a = true := by
  unfold best
  rw [List.find?_eq_some_iff_append]
  simp

theorem best_mem {xs : List α} {m : α} (h : best better xs = some m) : m ∈ xs :=
  List.mem_of_find?_eq_some h

theorem Ranks.irrefl (hr : Ranks better) (a : α) : better a a = false := by
  by_contra h
  have h := Bool.eq_true_of_not_eq_false h
  rw [hr.asymm a a h] at h
  cases h

theorem Ranks.flip (hr : Ranks better) : Ranks fun x m => better m x :=
  ⟨fun a b h => hr.asymm b a h, fun a b c h h' => hr.trans c b a h' h⟩

theorem best_concat (hr : Ranks better) {xs : List α} {m : α} (hm : best better xs = some m) (x : α) :
    best better (xs ++ [x]) = some (if better x m then x else m) := by
  obtain ⟨hun, as, bs, hxs, hbeat⟩ := best_eq_some_iff.1 hm
  rw [best_eq_some_iff]
  by_cases hx : better x m = true
  · rw [if_pos hx]
    -- what `x` does not beat would beat `m` or tie with it
    have hall : ∀ y ∈ xs, better x y = true := by
      intro y hy
      by_contra h
      have h := Bool.eq_false_of_not_eq_true h
      rw [hr.trans x y m h (hun y hy)] at hx
      cases hx
    refine ⟨?_, xs, [], by simp, fun a ha => ⟨x, by simp, hall a ha⟩⟩
    intro y hy
    rcases List.mem_append.1 hy with hy | hy
    · exact hr.asymm x y (hall y hy)
    · rw [List.mem_singleton.1 hy]
      exact hr.irrefl x
  · rw [if_neg hx]
    refine ⟨?_, as, bs ++ [x], by simp [hxs], ?_⟩
    · intro y hy
      rcases List.mem_append.1 hy with hy | hy
      · exact hun y hy
      · rw [List.mem_singleton.1 hy]
        exact Bool.eq_false_of_not_eq_true hx
    · intro a ha
      obtain ⟨y, hy, hya⟩ := hbeat a ha
      exact ⟨y, List.mem_append_left _ hy, hya⟩

theorem exists_best (hr : Ranks better) {xs : List α} (h : xs ≠ []) : ∃ m, best better xs = some m := by
  induction xs using List.reverseRecOn with
  | nil => exact absurd rfl h
  | append_singleton xs x ih =>
      by_cases hxs : xs = []
      · subst hxs
        refine ⟨x, best_eq_some_iff.2 ⟨?_, [], [], rfl, by simp⟩⟩
        intro y hy
        rw [List.nil_append, List.mem_singleton] at hy
        subst hy
        exact hr.irrefl y
      · obtain ⟨m, hm⟩ := ih hxs
        exact ⟨_, best_concat hr hm x⟩

theorem keep_best (hr : Ranks better) (xs : List α) (x : α) :
    keep better (best better xs) x = best better (xs ++ [x]) := by
  by_cases hxs : xs = []
  · subst hxs
    have hne : [] ++ [x] ≠ [] := by simp
    obtain ⟨m, hm⟩ := exists_best hr hne
    have hmx : m = x := by simpa using best_mem hm
    rw [hm, hmx]
    rfl
  · obtain ⟨m, hm⟩ := exists_best hr hxs
    rw [best_concat hr hm, hm, keep_some]

theorem foldl_keep (hr : Ranks better) (xs : List α) : xs.foldl (keep better) none = best better xs := by
  induction xs using List.reverseRecOn with
  | nil => rfl
  | append_singleton xs x ih => rw [List.foldl_append, ih, List.foldl_cons, List.foldl_nil, keep_best hr]

end Best

end Rmdb.Lib
