import Mathlib

/-!
# Bitmaps

`Bitmap` of src/record/bitmap.h: position `pos` is the bit `0x80 >> pos % 8` of byte `pos / 8`.
`countSet n bm` is how many of the first `n` positions are set.
-/

namespace Rmdb.Record

abbrev Bitmap := List UInt8

namespace Bitmap

/-! ## Operations -/

def bitmapWidth : Nat := 8
def bitmapHighestBit : UInt8 := 0x80

def getBucket (pos : Nat) : Nat := pos / bitmapWidth
def getBit (pos : Nat) : UInt8 := bitmapHighestBit >>> UInt8.ofNat (pos % bitmapWidth)

def init (size : Nat) : Bitmap := List.replicate size 0

def set (bm : Bitmap) (pos : Nat) : Bitmap := bm.modify (getBucket pos) (· ||| getBit pos)
def reset (bm : Bitmap) (pos : Nat) : Bitmap := bm.modify (getBucket pos) (· &&& ~~~ getBit pos)
def isSet (bm : Bitmap) (pos : Nat) : Bool := decide (bm.getD (getBucket pos) 0 &&& getBit pos ≠ 0)

/-- `for (i = curr + 1; i < max_n; i++)`, with `start = curr + 1`. -/
def nextBit (bit : Bool) (bm : Bitmap) (maxN start : Nat) : Nat :=
  ((List.range' start (maxN - start)).find? fun i => isSet bm i == bit).getD maxN

/-! ## One byte -/

/-- Bit `k` of a byte, from the left. -/
theorem and_getBit (b : UInt8) (pos : Nat) :
    decide (b &&& getBit pos ≠ 0) = b.toBitVec.getLsbD (7 - pos % 8) := by
  have hmod : pos % 8 < 8 := Nat.mod_lt _ (by decide)
  have hall : ∀ (k : Fin 8) (b : UInt8),
      decide (b &&& bitmapHighestBit >>> UInt8.ofNat k ≠ 0) = b.toBitVec.getLsbD (7 - k) := by
    decide +kernel
  exact hall ⟨pos % 8, hmod⟩ b

theorem getLsbD_getBit (pos k : Nat) (hk : k < 8) :
    (getBit pos).toBitVec.getLsbD (7 - k) = decide (pos % 8 = k) := by
  have hmod : pos % 8 < 8 := Nat.mod_lt _ (by decide)
  have hall : ∀ i k : Fin 8,
      (bitmapHighestBit >>> UInt8.ofNat i).toBitVec.getLsbD (7 - k) = decide ((i : Nat) = k) := by
    decide +kernel
  exact hall ⟨pos % 8, hmod⟩ ⟨k, hk⟩

/-! ## Reading after writing -/

theorem isSet_eq (bm : Bitmap) (pos : Nat) :
    isSet bm pos = (bm.getD (pos / 8) 0).toBitVec.getLsbD (7 - pos % 8) := and_getBit _ pos

theorem isSet_init (size pos : Nat) : isSet (init size) pos = false := by
  rw [isSet_eq, init]
  by_cases hpos : pos / 8 < size
  · simp [hpos]
  · simp [hpos]

@[simp] theorem set_length (bm : Bitmap) (pos : Nat) : (set bm pos).length = bm.length := by
  rw [set, List.length_modify]

@[simp] theorem reset_length (bm : Bitmap) (pos : Nat) : (reset bm pos).length = bm.length := by
  rw [reset, List.length_modify]

theorem getD_modify (bm : Bitmap) (f : UInt8 → UInt8) {i : Nat} (hi : i < bm.length) (j : Nat) :
    (bm.modify i f).getD j 0 = if i = j then f (bm.getD j 0) else bm.getD j 0 := by
  rw [List.getD_eq_getElem?_getD, List.getD_eq_getElem?_getD, List.getElem?_modify]
  by_cases hij : i = j
  · subst hij
    rw [if_pos rfl, List.getElem?_eq_getElem hi]
    simp
  · rw [if_neg hij]
    simp [hij]

theorem isSet_set {bm : Bitmap} {pos : Nat} (h : pos < 8 * bm.length) (i : Nat) :
    isSet (set bm pos) i = (decide (i = pos) || isSet bm i) := by
  have hbucket : getBucket pos < bm.length := by
    unfold getBucket bitmapWidth
    omega
  have hmod : i % 8 < 8 := Nat.mod_lt _ (by decide)
  rw [isSet_eq, isSet_eq, set, getD_modify bm _ hbucket]
  unfold getBucket bitmapWidth
  by_cases hsame : pos / 8 = i / 8
  · rw [if_pos hsame, UInt8.toBitVec_or, BitVec.getLsbD_or, getLsbD_getBit pos _ hmod, Bool.or_comm]
    congr 1
    exact decide_eq_decide.2 ⟨fun hm => by omega, fun heq => by rw [heq]⟩
  · rw [if_neg hsame, decide_eq_false (by rintro rfl; exact hsame rfl), Bool.false_or]

theorem isSet_reset {bm : Bitmap} {pos : Nat} (h : pos < 8 * bm.length) (i : Nat) :
    isSet (reset bm pos) i = (!decide (i = pos) && isSet bm i) := by
  have hbucket : getBucket pos < bm.length := by
    unfold getBucket bitmapWidth
    omega
  have hmod : i % 8 < 8 := Nat.mod_lt _ (by decide)
  rw [isSet_eq, isSet_eq, reset, getD_modify bm _ hbucket]
  unfold getBucket bitmapWidth
  by_cases hsame : pos / 8 = i / 8
  · rw [if_pos hsame, UInt8.toBitVec_and, UInt8.toBitVec_not, BitVec.getLsbD_and, BitVec.getLsbD_not,
      getLsbD_getBit pos _ hmod, Bool.and_comm]
    congr 1
    rw [decide_eq_true (by omega : 7 - i % 8 < 8), Bool.true_and]
    congr 1
    exact decide_eq_decide.2 ⟨fun hm => by omega, fun heq => by rw [heq]⟩
  · rw [if_neg hsame, decide_eq_false (by rintro rfl; exact hsame rfl), Bool.not_false, Bool.true_and]

/-! ## The next bit -/

/-- `next_bit` gives the first position of that value, or `max_n`. -/
theorem nextBit_spec (bit : Bool) (bm : Bitmap) {maxN start : Nat} (hle : start ≤ maxN) :
    start ≤ nextBit bit bm maxN start ∧ nextBit bit bm maxN start ≤ maxN ∧
      (∀ i, start ≤ i → i < nextBit bit bm maxN start → isSet bm i ≠ bit) ∧
      (nextBit bit bm maxN start < maxN → isSet bm (nextBit bit bm maxN start) = bit) := by
  unfold nextBit
  cases hfind : (List.range' start (maxN - start)).find? fun i => isSet bm i == bit with
  | none =>
      rw [Option.getD_none]
      refine ⟨hle, le_rfl, fun i hstart hlt heq => ?_, fun hlt => absurd hlt (lt_irrefl _)⟩
      refine List.find?_eq_none.1 hfind i ?_ (beq_iff_eq.2 heq)
      rw [List.mem_range'_1]
      omega
  | some n =>
      rw [Option.getD_some]
      obtain ⟨hbit, as, bs, hsplit, hbefore⟩ := List.find?_eq_some_iff_append.1 hfind
      have hmem : n ∈ List.range' start (maxN - start) := List.mem_of_find?_eq_some hfind
      rw [List.mem_range'_1] at hmem
      refine ⟨hmem.1, by omega, fun i hstart hlt heq => ?_, fun _ => beq_iff_eq.1 hbit⟩
      have hi : i ∈ List.range' start (maxN - start) := by
        rw [List.mem_range'_1]
        omega
      rw [hsplit, List.mem_append, List.mem_cons] at hi
      rcases hi with hi | rfl | hi
      · have := hbefore i hi
        simp [heq] at this
      · exact lt_irrefl _ hlt
      · have hsorted : (List.range' start (maxN - start)).Pairwise (· < ·) :=
          List.pairwise_lt_range'
        rw [hsplit] at hsorted
        have := (List.pairwise_cons.1 (List.pairwise_append.1 hsorted).2.1).1 i hi
        omega

/-! ## How many bits are set -/

def countSet (n : Nat) (bm : Bitmap) : Nat := (List.range n).countP (isSet bm)

theorem countSet_le (n : Nat) (bm : Bitmap) : countSet n bm ≤ n :=
  (List.countP_le_length).trans (by rw [List.length_range])

theorem countSet_init (n size : Nat) : countSet n (init size) = 0 := by
  rw [countSet, List.countP_eq_zero]
  intro i _
  rw [isSet_init]
  exact Bool.false_ne_true

theorem countP_insert {p q : Nat → Bool} {pos n : Nat} (hpos : pos < n) (hp : p pos = false)
    (hq : ∀ i, q i = (decide (i = pos) || p i)) :
    (List.range n).countP q = (List.range n).countP p + 1 := by
  induction n with
  | zero => omega
  | succ n ih =>
      rw [List.range_succ, List.countP_append, List.countP_append, List.countP_singleton, List.countP_singleton]
      by_cases hlast : pos = n
      · subst hlast
        have hsame : (List.range pos).countP q = (List.range pos).countP p := by
          refine List.countP_congr fun i hi => ?_
          rw [List.mem_range] at hi
          rw [hq i, decide_eq_false (by omega), Bool.false_or]
        rw [hsame, hq, hp]
        simp
      · rw [ih (by omega), hq n, decide_eq_false (by omega), Bool.false_or]
        omega

theorem countSet_set {bm : Bitmap} {pos n : Nat} (h : pos < 8 * bm.length) (hpos : pos < n)
    (hclear : isSet bm pos = false) : countSet n (set bm pos) = countSet n bm + 1 :=
  countP_insert hpos hclear (isSet_set h)

theorem countSet_reset {bm : Bitmap} {pos n : Nat} (h : pos < 8 * bm.length) (hpos : pos < n)
    (hset : isSet bm pos = true) : countSet n (reset bm pos) + 1 = countSet n bm := by
  refine (countP_insert hpos ?_ fun i => ?_).symm
  · rw [isSet_reset h, decide_eq_true rfl]
    rfl
  · rw [isSet_reset h]
    by_cases hi : i = pos
    · rw [hi, hset, decide_eq_true rfl]
      rfl
    · rw [decide_eq_false hi]
      rfl

/-- A page with as many records as slots has none. -/
theorem isSet_of_full {n : Nat} {bm : Bitmap} (h : countSet n bm = n) {i : Nat} (hi : i < n) :
    isSet bm i = true := by
  unfold countSet at h
  refine List.countP_eq_length.1 (h.trans List.length_range.symm) i (List.mem_range.2 hi)

end Bitmap

end Rmdb.Record
