import Mathlib

/-!
# Index keys

A key is the concatenation of its columns' bytes; `ix_compare` (src/index/ix_index_handle.h)
compares column by column, `INT` as a signed integer and `CHAR` by `memcmp`.  The order is
the lexicographic order of the columns' values (`IxKey.code`), so keys form a linear order
and `ix_compare` decides it (`ixCompare_lt_iff`, `ixCompare_eq_iff`).
-/

namespace Rmdb.Index

/-- The type and length of a key column; `FLOAT` columns are not modelled. -/
inductive IxCol where
  | int
  | string (len : Nat)
deriving DecidableEq, Repr

def IxCol.len : IxCol → Nat
  | int => 4
  | string n => n

/-- `*(int *)a` on a little endian machine. -/
def readInt (a : List UInt8) : Int :=
  (BitVec.ofNat 32 ((a.getD 0 0).toNat + 2 ^ 8 * (a.getD 1 0).toNat + 2 ^ 16 * (a.getD 2 0).toNat +
    2 ^ 24 * (a.getD 3 0).toNat)).toInt

def memcmp : Nat → List UInt8 → List UInt8 → Int
  | n + 1, a :: as, b :: bs => if a < b then -1 else if b < a then 1 else memcmp n as bs
  | _, _, _ => 0

def ixCompareCol (c : IxCol) (a b : List UInt8) : Int :=
  match c with
  | .int => if readInt a < readInt b then -1 else if readInt a > readInt b then 1 else 0
  | .string n => memcmp n a b

def ixCompare : List IxCol → List UInt8 → List UInt8 → Int
  | [], _, _ => 0
  | c :: cs, a, b =>
      let res := ixCompareCol c a b
      if res ≠ 0 then res else ixCompare cs (a.drop c.len) (b.drop c.len)

/-- `col_tot_len` bytes. -/
structure IxKey (cols : List IxCol) where
  bytes : List UInt8
  length_eq : bytes.length = (cols.map IxCol.len).sum

/-! ## The order of the keys -/

/-- The value of a column as a list of integers. -/
def colCode : IxCol → List UInt8 → List Int
  | .int, a => [readInt a]
  | .string n, a => (a.take n).map fun b => (b.toNat : Int)

def keyCode : List IxCol → List UInt8 → List Int
  | [], _ => []
  | c :: cs, a => colCode c a ++ keyCode cs (a.drop c.len)

theorem readInt_inj {a b : List UInt8} (ha : a.length = 4) (hb : b.length = 4)
    (h : readInt a = readInt b) : a = b := by
  obtain ⟨a0, a1, a2, a3, rfl⟩ : ∃ a0 a1 a2 a3, a = [a0, a1, a2, a3] := by
    match a, ha with
    | [a0, a1, a2, a3], _ => exact ⟨a0, a1, a2, a3, rfl⟩
  obtain ⟨b0, b1, b2, b3, rfl⟩ : ∃ b0 b1 b2 b3, b = [b0, b1, b2, b3] := by
    match b, hb with
    | [b0, b1, b2, b3], _ => exact ⟨b0, b1, b2, b3, rfl⟩
  have := congrArg BitVec.toNat (BitVec.eq_of_toInt_eq h)
  simp only [List.getD_cons_zero, List.getD_cons_succ, BitVec.toNat_ofNat] at this
  have ha0 := a0.toNat_lt
  have ha1 := a1.toNat_lt
  have ha2 := a2.toNat_lt
  have ha3 := a3.toNat_lt
  have hb0 := b0.toNat_lt
  have hb1 := b1.toNat_lt
  have hb2 := b2.toNat_lt
  have hb3 := b3.toNat_lt
  rw [Nat.mod_eq_of_lt (by omega), Nat.mod_eq_of_lt (by omega)] at this
  have h0 : a0.toNat = b0.toNat := by omega
  have h1 : a1.toNat = b1.toNat := by omega
  have h2 : a2.toNat = b2.toNat := by omega
  have h3 : a3.toNat = b3.toNat := by omega
  rw [UInt8.toNat_inj.1 h0, UInt8.toNat_inj.1 h1, UInt8.toNat_inj.1 h2, UInt8.toNat_inj.1 h3]

theorem readInt_take (a : List UInt8) : readInt (a.take 4) = readInt a := by
  have hget : ∀ i < 4, (a.take 4).getD i 0 = a.getD i 0 := fun i hi => by
    rw [List.getD_eq_getElem?_getD, List.getD_eq_getElem?_getD, List.getElem?_take_of_lt hi]
  simp only [readInt, hget 0 (by decide), hget 1 (by decide), hget 2 (by decide), hget 3 (by decide)]

theorem colCode_length {c : IxCol} {a b : List UInt8} (ha : c.len ≤ a.length)
    (hb : c.len ≤ b.length) : (colCode c a).length = (colCode c b).length := by
  cases c with
  | int => simp [colCode]
  | string n =>
      simp only [IxCol.len] at ha hb
      simp [colCode, Nat.min_eq_left ha, Nat.min_eq_left hb]

theorem colCode_inj {c : IxCol} {a b : List UInt8} (ha : c.len ≤ a.length) (hb : c.len ≤ b.length)
    (h : colCode c a = colCode c b) : a.take c.len = b.take c.len := by
  cases c with
  | int =>
      simp only [IxCol.len] at ha hb ⊢
      refine readInt_inj (List.length_take_of_le ha) (List.length_take_of_le hb) ?_
      rw [readInt_take, readInt_take]
      simpa [colCode] using h
  | string n =>
      refine List.map_injective_iff.2 (fun x y hxy => ?_) h
      exact UInt8.toNat_inj.1 (Int.ofNat_inj.1 hxy)

theorem keyCode_inj : ∀ {cols : List IxCol} {a b : List UInt8},
    a.length = (cols.map IxCol.len).sum → b.length = (cols.map IxCol.len).sum →
    keyCode cols a = keyCode cols b → a = b := by
  intro cols
  induction cols with
  | nil =>
      intro a b ha hb _
      rw [List.length_eq_zero_iff.1 ha, List.length_eq_zero_iff.1 hb]
  | cons c cs ih =>
      intro a b ha hb h
      simp only [List.map_cons, List.sum_cons] at ha hb
      have hla : c.len ≤ a.length := by omega
      have hlb : c.len ≤ b.length := by omega
      obtain ⟨hcol, hrest⟩ := List.append_inj h (colCode_length hla hlb)
      rw [← List.take_append_drop c.len a, ← List.take_append_drop c.len b, colCode_inj hla hlb hcol,
        ih (by rw [List.length_drop]; omega) (by rw [List.length_drop]; omega) hrest]

namespace IxKey

variable {cols : List IxCol}

def code (k : IxKey cols) : List Int := keyCode cols k.bytes

theorem code_injective : Function.Injective (code : IxKey cols → List Int) := by
  rintro ⟨a, ha⟩ ⟨b, hb⟩ h
  obtain rfl := keyCode_inj ha hb h
  rfl

instance : LinearOrder (IxKey cols) := LinearOrder.lift' code code_injective

/-- The key of zero bytes. -/
instance : Inhabited (IxKey cols) := ⟨⟨List.replicate (cols.map IxCol.len).sum 0, by simp⟩⟩

end IxKey

/-! ## `ix_compare` decides the order -/

theorem memcmp_lt_iff : ∀ {n : Nat} {a b : List UInt8}, n ≤ a.length → n ≤ b.length →
    (memcmp n a b < 0 ↔ (a.take n).map (fun x => (x.toNat : Int)) <
      (b.take n).map fun x => (x.toNat : Int)) := by
  intro n
  induction n with
  | zero => intro a b _ _; simp [memcmp]
  | succ n ih =>
      intro a b ha hb
      match a, b with
      | x :: a, y :: b =>
          simp only [List.length_cons, Nat.add_le_add_iff_right] at ha hb
          simp only [memcmp, List.take_succ_cons, List.map_cons, List.cons_lt_cons_iff, ← ih ha hb,
            Int.ofNat_lt, Int.ofNat_inj, ← UInt8.lt_iff_toNat_lt]
          split
          · next h => simp [h]
          · next h =>
            split
            · next h' =>
              have hne : ¬ x.toNat = y.toNat := by
                rw [UInt8.lt_iff_toNat_lt] at h'
                omega
              simp [h, hne]
            · next h' =>
              have heq : x.toNat = y.toNat := by
                rw [UInt8.lt_iff_toNat_lt] at h h'
                omega
              simp [h, heq]

theorem memcmp_eq_iff : ∀ {n : Nat} {a b : List UInt8}, n ≤ a.length → n ≤ b.length →
    (memcmp n a b = 0 ↔ a.take n = b.take n) := by
  intro n
  induction n with
  | zero => intro a b _ _; simp [memcmp]
  | succ n ih =>
      intro a b ha hb
      match a, b with
      | x :: a, y :: b =>
          simp only [List.length_cons, Nat.add_le_add_iff_right] at ha hb
          simp only [memcmp, List.take_succ_cons, List.cons.injEq, ← ih ha hb]
          split
          · next h => simp [UInt8.ne_of_lt h]
          · next h =>
            split
            · next h' => simp [(UInt8.ne_of_lt h').symm]
            · next h' => simp [UInt8.le_antisymm (UInt8.not_lt.1 h') (UInt8.not_lt.1 h)]

theorem ixCompareCol_lt_iff {c : IxCol} {a b : List UInt8} (ha : c.len ≤ a.length)
    (hb : c.len ≤ b.length) : ixCompareCol c a b < 0 ↔ colCode c a < colCode c b := by
  cases c with
  | int =>
      simp only [ixCompareCol, colCode, List.cons_lt_cons_iff, List.not_lt_nil, and_false, or_false]
      split_ifs <;> simp_all
  | string n => exact memcmp_lt_iff ha hb

theorem ixCompareCol_eq_iff {c : IxCol} {a b : List UInt8} (ha : c.len ≤ a.length)
    (hb : c.len ≤ b.length) : ixCompareCol c a b = 0 ↔ colCode c a = colCode c b := by
  cases c with
  | int =>
      simp only [ixCompareCol, colCode, List.cons.injEq, and_true]
      split_ifs with h1 h2
      · simp [ne_of_lt h1]
      · simp [ne_of_gt h2]
      · simp [le_antisymm (not_lt.1 h2) (not_lt.1 h1)]
  | string n =>
      refine (memcmp_eq_iff ha hb).trans ⟨fun h => congrArg (List.map _) h, fun h => ?_⟩
      exact colCode_inj ha hb h

theorem append_lt_append_iff {u v x y : List Int} (h : u.length = v.length) :
    u ++ x < v ++ y ↔ u < v ∨ (u = v ∧ x < y) := by
  induction u generalizing v with
  | nil =>
      obtain rfl : v = [] := List.length_eq_zero_iff.1 h.symm
      simp
  | cons e u ih =>
      cases v with
      | nil => simp at h
      | cons d v =>
          simp only [List.cons_append, List.cons_lt_cons_iff, ih (by simpa using h), List.cons.injEq]
          tauto

theorem ixCompare_code : ∀ {cols : List IxCol} {a b : List UInt8},
    a.length = (cols.map IxCol.len).sum → b.length = (cols.map IxCol.len).sum →
    (ixCompare cols a b < 0 ↔ keyCode cols a < keyCode cols b) ∧
      (ixCompare cols a b = 0 ↔ keyCode cols a = keyCode cols b) := by
  intro cols
  induction cols with
  | nil => intro a b _ _; simp [ixCompare, keyCode]
  | cons c cs ih =>
      intro a b ha hb
      simp only [List.map_cons, List.sum_cons] at ha hb
      have hla : c.len ≤ a.length := by omega
      have hlb : c.len ≤ b.length := by omega
      have hlen := colCode_length hla hlb
      obtain ⟨h1, h2⟩ := ih (a := a.drop c.len) (b := b.drop c.len)
        (by rw [List.length_drop]; omega) (by rw [List.length_drop]; omega)
      have hlt := ixCompareCol_lt_iff hla hlb
      have heq := ixCompareCol_eq_iff hla hlb
      have happ : colCode c a ++ keyCode cs (a.drop c.len) = colCode c b ++ keyCode cs (b.drop c.len) ↔
          colCode c a = colCode c b ∧ keyCode cs (a.drop c.len) = keyCode cs (b.drop c.len) :=
        ⟨fun h => List.append_inj h hlen, fun h => by rw [h.1, h.2]⟩
      simp only [ixCompare, keyCode, append_lt_append_iff hlen, happ, ← h1, ← h2, ← hlt, ← heq]
      split
      · next hne => simp [hne]
      · next h0 =>
        rw [not_not] at h0
        simp [h0]

/-- `ix_compare` and `memcmp` on two keys of an index. -/
theorem ixCompare_lt_iff {cols : List IxCol} (a b : IxKey cols) :
    ixCompare cols a.bytes b.bytes < 0 ↔ a < b :=
  (ixCompare_code a.length_eq b.length_eq).1

theorem ixCompare_eq_iff {cols : List IxCol} (a b : IxKey cols) :
    ixCompare cols a.bytes b.bytes = 0 ↔ a = b :=
  (ixCompare_code a.length_eq b.length_eq).2.trans ⟨fun h => IxKey.code_injective h, fun h => h ▸ rfl⟩

end Rmdb.Index
