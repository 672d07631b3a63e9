import Mathlib

/-!
# Numbers in big-endian bytes

`bigEndian bs` reads the number, `bigEndianBytes k n` writes `k` bytes of it; each undoes the other
(`bigEndianBytes_bigEndian`, `bigEndian_bigEndianBytes`).
-/

namespace Rmdb.Lib

def bigEndian (bs : List UInt8) : Nat := bs.foldl (fun v b => v <<< 8 ||| b.toNat) 0

def bigEndianBytes : Nat → Nat → List UInt8
  | 0, _ => []
  | k + 1, v => bigEndianBytes k (v >>> 8) ++ [UInt8.ofNat v]

theorem bigEndian_concat (bs : List UInt8) (b : UInt8) : bigEndian (bs ++ [b]) = bigEndian bs * 256 + b.toNat := by
  unfold bigEndian
  rw [List.foldl_append]
  show (bs.foldl _ 0) <<< 8 ||| b.toNat = _
  rw [← Nat.shiftLeft_add_eq_or_of_lt b.toNat_lt, Nat.shiftLeft_eq]

@[simp] theorem length_bigEndianBytes (k n : Nat) : (bigEndianBytes k n).length = k := by
  induction k generalizing n with
  | zero => rfl
  | succ k ih =>
      unfold bigEndianBytes
      rw [List.length_append, ih]
      rfl

theorem bigEndian_lt (bs : List UInt8) : bigEndian bs < 256 ^ bs.length := by
  induction bs using List.reverseRecOn with
  | nil => exact Nat.one_pos
  | append_singleton bs b ih =>
      rw [bigEndian_concat, List.length_append, List.length_singleton, Nat.pow_succ]
      have := b.toNat_lt
      omega

theorem bigEndianBytes_bigEndian (bs : List UInt8) : bigEndianBytes bs.length (bigEndian bs) = bs := by
  induction bs using List.reverseRecOn with
  | nil => rfl
  | append_singleton bs b ih =>
      have hb := b.toNat_lt
      have hhigh : bigEndian (bs ++ [b]) >>> 8 = bigEndian bs := by
        rw [bigEndian_concat, Nat.shiftRight_eq_div_pow]
        omega
      have hlow : UInt8.ofNat (bigEndian (bs ++ [b])) = b := by
        apply UInt8.toNat_inj.1
        rw [bigEndian_concat, UInt8.toNat_ofNat']
        omega
      rw [List.length_append, List.length_singleton]
      unfold bigEndianBytes
      rw [hhigh, hlow, ih]

theorem bigEndian_bigEndianBytes {k n : Nat} (hn : n < 256 ^ k) : bigEndian (bigEndianBytes k n) = n := by
  induction k generalizing n with
  | zero =>
      rw [Nat.pow_zero] at hn
      have : n = 0 := by omega
      rw [this]
      rfl
  | succ k ih =>
      have hhigh : n >>> 8 < 256 ^ k := by
        rw [Nat.shiftRight_eq_div_pow, Nat.div_lt_iff_lt_mul (by decide), ← Nat.pow_succ]
        exact hn
      unfold bigEndianBytes
      rw [bigEndian_concat, ih hhigh, UInt8.toNat_ofNat', Nat.shiftRight_eq_div_pow]
      omega

end Rmdb.Lib
