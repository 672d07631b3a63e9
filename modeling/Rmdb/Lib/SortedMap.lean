import Mathlib

/-!
# Maps as sorted lists

A map whose entries are kept in the order of their keys.  `set` inserts or replaces; setting the
entries of a map one after another in an empty one gives the map back (`foldl_set`).  Where only the
entries count and not their order, a map is the entry of a key and the map without it (`entries_perm`,
`set_perm`).
-/

namespace Rmdb.Lib

variable {κ ν : Type} [LinearOrder κ]

structure SortedMap (κ ν : Type) [LinearOrder κ] where
  entries : List (κ × ν)
  sorted : entries.Pairwise fun e e' => e.1 < e'.1

namespace SortedMap

@[ext] theorem ext {m m' : SortedMap κ ν} (h : m.entries = m'.entries) : m = m' := by
  obtain ⟨es, hes⟩ := m
  obtain ⟨es', hes'⟩ := m'
  obtain rfl : es = es' := h
  rfl

def empty : SortedMap κ ν := ⟨[], List.Pairwise.nil⟩

def setList (k : κ) (v : ν) : List (κ × ν) → List (κ × ν)
  | [] => [(k, v)]
  | e :: es => if k < e.1 then (k, v) :: e :: es else if e.1 < k then e :: setList k v es else (k, v) :: es

theorem mem_setList {k : κ} {v : ν} {e : κ × ν} : ∀ {es : List (κ × ν)}, e ∈ setList k v es → e = (k, v) ∨ e ∈ es := by
  intro es
  induction es with
  | nil => exact fun h => .inl (List.mem_singleton.1 h)
  | cons e' es ih =>
      intro h
      unfold setList at h
      split at h
      · rcases List.mem_cons.1 h with h | h
        · exact .inl h
        · exact .inr h
      · split at h
        · rcases List.mem_cons.1 h with h | h
          · exact .inr (h ▸ List.mem_cons_self)
          · exact (ih h).imp_right (List.mem_cons_of_mem _)
        · rcases List.mem_cons.1 h with h | h
          · exact .inl h
          · exact .inr (List.mem_cons_of_mem _ h)

theorem setList_sorted (k : κ) (v : ν) : ∀ {es : List (κ × ν)}, es.Pairwise (fun e e' => e.1 < e'.1) →
    (setList k v es).Pairwise fun e e' => e.1 < e'.1 := by
  intro es
  induction es with
  | nil => exact fun _ => List.pairwise_singleton ..
  | cons e es ih =>
      intro h
      obtain ⟨hhead, htail⟩ := List.pairwise_cons.1 h
      unfold setList
      split
      · next hlt =>
          refine List.pairwise_cons.2 ⟨fun e' he' => ?_, h⟩
          rcases List.mem_cons.1 he' with rfl | he'
          · exact hlt
          · exact hlt.trans (hhead e' he')
      · split
        · next hlt =>
            refine List.pairwise_cons.2 ⟨fun e' he' => ?_, ih htail⟩
            rcases mem_setList he' with rfl | he'
            · exact hlt
            · exact hhead e' he'
        · next h1 h2 =>
            have heq : k = e.1 := le_antisymm (not_lt.1 h2) (not_lt.1 h1)
            refine List.pairwise_cons.2 ⟨fun e' he' => ?_, htail⟩
            rw [heq]
            exact hhead e' he'

/-- `m[k] = v`. -/
def set (m : SortedMap κ ν) (k : κ) (v : ν) : SortedMap κ ν := ⟨setList k v m.entries, setList_sorted k v m.sorted⟩

theorem setList_last {k : κ} {v : ν} : ∀ {es : List (κ × ν)}, (∀ e ∈ es, e.1 < k) → setList k v es = es ++ [(k, v)] := by
  intro es
  induction es with
  | nil => exact fun _ => rfl
  | cons e es ih =>
      intro h
      have he := h e List.mem_cons_self
      unfold setList
      rw [if_neg (not_lt.2 he.le), if_pos he, ih fun e' he' => h e' (List.mem_cons_of_mem _ he')]
      rfl

theorem foldl_set_entries : ∀ (es : List (κ × ν)) (m : SortedMap κ ν),
    (m.entries ++ es).Pairwise (fun e e' => e.1 < e'.1) →
      (es.foldl (fun m e => m.set e.1 e.2) m).entries = m.entries ++ es := by
  intro es
  induction es with
  | nil => exact fun m _ => (List.append_nil _).symm
  | cons e es ih =>
      intro m h
      have hlast : (m.set e.1 e.2).entries = m.entries ++ [e] := by
        refine setList_last fun e' he' => ?_
        exact (List.pairwise_append.1 h).2.2 e' he' e List.mem_cons_self
      rw [List.foldl_cons, ih, hlast, List.append_assoc]
      · rfl
      · rw [hlast, List.append_assoc]
        exact h

theorem foldl_set (m : SortedMap κ ν) : m.entries.foldl (fun m e => m.set e.1 e.2) empty = m :=
  ext (foldl_set_entries m.entries empty m.sorted)

/-! ## Finding and erasing -/

def find? (m : SortedMap κ ν) (k : κ) : Option ν := (m.entries.find? fun e => decide (e.1 = k)).map Prod.snd

def erase (m : SortedMap κ ν) (k : κ) : SortedMap κ ν :=
  ⟨m.entries.filter fun e => decide (e.1 ≠ k), m.sorted.sublist List.filter_sublist⟩

theorem mem_erase {m : SortedMap κ ν} {k : κ} {e : κ × ν} : e ∈ (m.erase k).entries ↔ e ∈ m.entries ∧ e.1 ≠ k := by
  unfold erase
  rw [List.mem_filter, decide_eq_true_iff]

theorem mem_of_find? {m : SortedMap κ ν} {k : κ} {v : ν} (h : m.find? k = some v) : (k, v) ∈ m.entries := by
  obtain ⟨⟨k', v'⟩, he, rfl⟩ := Option.map_eq_some_iff.1 h
  have hk := List.find?_some he
  rw [decide_eq_true_iff] at hk
  obtain rfl : k' = k := hk
  exact List.mem_of_find?_eq_some he

theorem find?_eq_none_iff {m : SortedMap κ ν} {k : κ} : m.find? k = none ↔ ∀ e ∈ m.entries, e.1 ≠ k := by
  unfold find?
  rw [Option.map_eq_none_iff, List.find?_eq_none]
  simp only [decide_eq_true_eq, ne_eq]

/-- The entry of a key and the other entries. -/
theorem entries_perm {m : SortedMap κ ν} {k : κ} {v : ν} (h : m.find? k = some v) :
    m.entries.Perm ((k, v) :: (m.erase k).entries) := by
  obtain ⟨as, bs, hsplit⟩ := List.append_of_mem (mem_of_find? h)
  have hsorted := m.sorted
  rw [hsplit] at hsorted
  obtain ⟨-, hbs, has⟩ := List.pairwise_append.1 hsorted
  have hleft : as.filter (fun e => decide (e.1 ≠ k)) = as := by
    rw [List.filter_eq_self]
    intro e he
    exact decide_eq_true (has e he (k, v) List.mem_cons_self).ne
  have hright : bs.filter (fun e => decide (e.1 ≠ k)) = bs := by
    rw [List.filter_eq_self]
    intro e he
    exact decide_eq_true ((List.pairwise_cons.1 hbs).1 e he).ne'
  have herase : (m.erase k).entries = as ++ bs := by
    show m.entries.filter (fun e => decide (e.1 ≠ k)) = as ++ bs
    rw [hsplit, List.filter_append, hleft, List.filter_cons_of_neg (by simp), hright]
  rw [hsplit, herase]
  exact List.perm_middle

theorem setList_perm (k : κ) (v : ν) : ∀ {es : List (κ × ν)}, es.Pairwise (fun e e' => e.1 < e'.1) →
    (setList k v es).Perm ((k, v) :: es.filter fun e => decide (e.1 ≠ k)) := by
  intro es
  induction es with
  | nil => exact fun _ => .refl _
  | cons e es ih =>
      intro h
      obtain ⟨hhead, htail⟩ := List.pairwise_cons.1 h
      unfold setList
      split
      · next hlt =>
          have hall : (e :: es).filter (fun e => decide (e.1 ≠ k)) = e :: es := by
            rw [List.filter_eq_self]
            intro e' he'
            rcases List.mem_cons.1 he' with rfl | he'
            · exact decide_eq_true hlt.ne'
            · exact decide_eq_true (hlt.trans (hhead e' he')).ne'
          rw [hall]
      · split
        · next hlt =>
            rw [List.filter_cons_of_pos (by simp [hlt.ne])]
            exact ((ih htail).cons e).trans (.swap _ _ _)
        · next h1 h2 =>
            have heq : e.1 = k := le_antisymm (not_lt.1 h1) (not_lt.1 h2)
            have hrest : es.filter (fun e => decide (e.1 ≠ k)) = es := by
              rw [List.filter_eq_self]
              intro e' he'
              exact decide_eq_true (heq ▸ hhead e' he').ne'
            rw [List.filter_cons_of_neg (by simp [heq]), hrest]

theorem set_perm (m : SortedMap κ ν) (k : κ) (v : ν) : (m.set k v).entries.Perm ((k, v) :: (m.erase k).entries) :=
  setList_perm k v m.sorted

theorem mem_set {m : SortedMap κ ν} {k : κ} {v : ν} {e : κ × ν} :
    e ∈ (m.set k v).entries ↔ e = (k, v) ∨ e ∈ (m.erase k).entries := by
  rw [(m.set_perm k v).mem_iff, List.mem_cons]

theorem find?_set_self (m : SortedMap κ ν) (k : κ) (v : ν) : (m.set k v).find? k = some v := by
  cases h : (m.set k v).find? k with
  | none => exact absurd rfl (find?_eq_none_iff.1 h (k, v) (mem_set.2 (.inl rfl)))
  | some v' =>
      rcases mem_set.1 (mem_of_find? h) with heq | hmem
      · rw [(Prod.mk.inj heq).2]
      · exact absurd rfl (mem_erase.1 hmem).2

theorem erase_eq_self {m : SortedMap κ ν} {k : κ} (h : m.find? k = none) : m.erase k = m := by
  apply ext
  unfold erase
  rw [List.filter_eq_self]
  intro e he
  exact decide_eq_true (find?_eq_none_iff.1 h e he)

theorem erase_set (m : SortedMap κ ν) (k : κ) (v : ν) : (m.set k v).erase k = m.erase k := by
  apply ext
  have hperm := ((entries_perm (find?_set_self m k v)).symm.trans (m.set_perm k v)).cons_inv
  refine hperm.eq_of_pairwise (fun e e' _ _ h h' => ?_) ((m.set k v).erase k).sorted (m.erase k).sorted
  exact absurd h' (lt_asymm h)

theorem erase_erase (m : SortedMap κ ν) (k : κ) : (m.erase k).erase k = m.erase k :=
  erase_eq_self (find?_eq_none_iff.2 fun _ he => (mem_erase.1 he).2)

end SortedMap

end Rmdb.Lib
