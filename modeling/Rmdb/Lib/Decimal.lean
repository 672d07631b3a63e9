import Mathlib

/-!
# Decimal numerals as bytes

`decimal n` are the ASCII digits of `n`, `digitsValue` reads digits back (`digitsValue_decimal`), and
`decimalInt` puts a minus sign before the digits of a negative number.  Where no digit follows, the
digits at the beginning of a text are those of the numeral (`takeWhile_decimal`).
-/

namespace Rmdb.Lib

def isDigit (c : UInt8) : Bool := 48 ≤ c && c ≤ 57

def digitsValue (ds : List UInt8) : Nat := ds.foldl (fun n c => n * 10 + (c.toNat - 48)) 0

/-- The digit of a number below 10. -/
def digit (d : Nat) : UInt8 := UInt8.ofNat (48 + d)

def decimal (n : Nat) : List UInt8 := (Nat.toDigits 10 n).map fun c => UInt8.ofNat c.toNat

def decimalInt (i : Int) : List UInt8 := if i < 0 then 45 :: decimal i.natAbs else decimal i.natAbs

theorem digit_of_digitChar_all : ∀ d < 10, UInt8.ofNat (Nat.digitChar d).toNat = digit d := by decide

theorem isDigit_digit_all : ∀ d < 10, isDigit (digit d) = true := by decide

theorem toNat_digit_all : ∀ d < 10, (digit d).toNat - 48 = d := by decide

/-- The last digit behind the others. -/
theorem decimal_eq (n : Nat) :
    decimal n = if n < 10 then [digit n] else decimal (n / 10) ++ [digit (n % 10)] := by
  unfold decimal
  rw [Nat.toDigits_eq_if (by decide)]
  split
  · next h => rw [List.map_singleton, digit_of_digitChar_all n h]
  · rw [List.map_append, List.map_singleton, digit_of_digitChar_all _ (Nat.mod_lt n (by decide))]

theorem decimal_ne_nil (n : Nat) : decimal n ≠ [] := by
  rw [decimal_eq]
  split
  · exact List.cons_ne_nil _ _
  · exact List.append_ne_nil_of_right_ne_nil _ (List.cons_ne_nil _ _)

theorem isDigit_of_mem_decimal {n : Nat} : ∀ c ∈ decimal n, isDigit c = true := by
  induction n using Nat.strong_induction_on with
  | _ n ih =>
      rw [decimal_eq]
      split
      · next h =>
          intro c hc
          rw [List.mem_singleton.1 hc]
          exact isDigit_digit_all n h
      · next h =>
          intro c hc
          rcases List.mem_append.1 hc with hc | hc
          · exact ih (n / 10) (by omega) c hc
          · rw [List.mem_singleton.1 hc]
            exact isDigit_digit_all _ (Nat.mod_lt n (by decide))

theorem digitsValue_concat (ds : List UInt8) (c : UInt8) :
    digitsValue (ds ++ [c]) = digitsValue ds * 10 + (c.toNat - 48) := by
  unfold digitsValue
  rw [List.foldl_append]
  rfl

theorem digitsValue_decimal (n : Nat) : digitsValue (decimal n) = n := by
  induction n using Nat.strong_induction_on with
  | _ n ih =>
      rw [decimal_eq]
      split
      · next h =>
          show 0 * 10 + ((digit n).toNat - 48) = n
          rw [toNat_digit_all n h]
          omega
      · next h =>
          rw [digitsValue_concat, ih (n / 10) (by omega), toNat_digit_all _ (Nat.mod_lt n (by decide))]
          omega

/-- A text that does not begin with an element of `p`. -/
def StopsAt {α : Type} (p : α → Bool) (rest : List α) : Prop := ∀ c ∈ rest.head?, p c = false

theorem takeWhile_append_stops {α : Type} {p : α → Bool} {l rest : List α} (hl : ∀ c ∈ l, p c = true)
    (hrest : StopsAt p rest) : (l ++ rest).takeWhile p = l ∧ (l ++ rest).dropWhile p = rest := by
  rw [List.takeWhile_append_of_pos hl, List.dropWhile_append_of_pos hl]
  cases rest with
  | nil => exact ⟨List.append_nil l, rfl⟩
  | cons c rest =>
      have hc : ¬ p c = true := by rw [hrest c rfl]; exact Bool.false_ne_true
      rw [List.takeWhile_cons_of_neg hc, List.dropWhile_cons_of_neg hc]
      exact ⟨List.append_nil l, rfl⟩

theorem takeWhile_decimal (n : Nat) {rest : List UInt8} (hrest : StopsAt isDigit rest) :
    (decimal n ++ rest).takeWhile isDigit = decimal n ∧ (decimal n ++ rest).dropWhile isDigit = rest :=
  takeWhile_append_stops isDigit_of_mem_decimal hrest

end Rmdb.Lib
