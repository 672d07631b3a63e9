import Mathlib

/-!
# Segments of an ordered list

A predicate that holds of everything before an element it holds of cuts an initial segment;
two such predicates cut the elements between two bounds (`take_drop_eq_filter`).
-/

namespace Rmdb.Lib

variable {α : Type*} {p q : α → Bool} {es : List α}

/-- Once it fails, it fails for the rest of the list. -/
def Initial (p : α → Bool) (es : List α) : Prop := es.Pairwise fun a b => p b = true → p a = true

theorem Initial.tail {a : α} (h : Initial p (a :: es)) : Initial p es := (List.pairwise_cons.1 h).2

theorem Initial.false_of_head {a : α} (h : Initial p (a :: es)) (ha : p a = false) :
    ∀ b ∈ es, p b = false := by
  intro b hb
  by_contra hpb
  have := (List.pairwise_cons.1 h).1 b hb (by simpa using hpb)
  rw [ha] at this
  cases this

theorem takeWhile_eq_filter : ∀ {es : List α}, Initial p es → es.takeWhile p = es.filter p := by
  intro es
  induction es with
  | nil => intro _; rfl
  | cons a es ih =>
      intro h
      by_cases ha : p a = true
      · rw [List.takeWhile_cons_of_pos ha, List.filter_cons_of_pos ha, ih h.tail]
      · have hf : p a = false := by simpa using ha
        rw [List.takeWhile_cons_of_neg ha, List.filter_cons_of_neg ha,
          List.filter_eq_nil_iff.2 fun b hb => by rw [h.false_of_head hf b hb]; decide]

/-- The elements from the end of one initial segment to the end of another. -/
theorem take_drop_eq_filter : ∀ {es : List α}, Initial p es → Initial q es →
    (es.take (es.takeWhile q).length).drop (es.takeWhile p).length =
      es.filter fun e => q e && !p e := by
  intro es
  induction es with
  | nil => intro _ _; rfl
  | cons a es ih =>
      intro hp hq
      by_cases ha : p a = true
      · by_cases hb : q a = true
        · rw [List.takeWhile_cons_of_pos ha, List.takeWhile_cons_of_pos hb, List.length_cons,
            List.length_cons, List.take_succ_cons, List.drop_succ_cons, ih hp.tail hq.tail,
            List.filter_cons_of_neg (by simp [ha])]
        · have hf : q a = false := by simpa using hb
          rw [List.takeWhile_cons_of_neg hb, List.length_nil, List.take_zero, List.drop_nil, eq_comm,
            List.filter_eq_nil_iff]
          intro b hb'
          rcases List.mem_cons.1 hb' with rfl | hb'
          · simp [hf]
          · simp [hq.false_of_head hf b hb']
      · have hf : p a = false := by simpa using ha
        have hall : ∀ b ∈ a :: es, p b = false := by
          intro b hb
          rcases List.mem_cons.1 hb with rfl | hb
          · exact hf
          · exact hp.false_of_head hf b hb
        have htake : (a :: es).take ((a :: es).takeWhile q).length = (a :: es).takeWhile q :=
          List.prefix_iff_eq_take.1 (List.takeWhile_prefix q) |>.symm
        rw [List.takeWhile_cons_of_neg ha, List.length_nil, List.drop_zero, htake,
          takeWhile_eq_filter hq]
        exact List.filter_congr fun b hb => by simp [hall b hb]

end Rmdb.Lib
