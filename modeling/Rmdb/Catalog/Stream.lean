import Rmdb.Exec.Load
import Rmdb.Lib.Decimal

/-!
# Formatted streams

`operator>>` of an `istream` in the C locale on the text that is left of it; `none` is a stream that has
failed.  `Reads` says that a reader finds its value behind any white space, when white space or the
end of the text follows, and `ReadsAny` that it does whatever follows.  Fields with white space
between them are read one after another (`Reads.bind`), and so are lists of values (`readsAny_many`,
`reads_many`).
-/

namespace Rmdb.Catalog

open Rmdb.Lib (isDigit digitsValue decimal decimalInt StopsAt takeWhile_append_stops takeWhile_decimal
  digitsValue_decimal decimal_ne_nil isDigit_of_mem_decimal)
open Rmdb.Txn (Bytes isSpace)

/-- A reader takes what it reads off the text. -/
abbrev Reader (α : Type) := Bytes → Option (α × Bytes)

namespace Reader

variable {α β : Type}

def bind (r : Reader α) (f : α → Reader β) : Reader β := fun s => (r s).bind fun p => f p.1 p.2

def pure (a : α) : Reader α := fun s => some (a, s)

def map (f : α → β) (r : Reader α) : Reader β := r.bind fun a => pure (f a)

/-- `n` values one after another. -/
def many (r : Reader α) : Nat → Reader (List α)
  | 0 => pure []
  | n + 1 => r.bind fun a => (r.many n).map (a :: ·)

end Reader

/-- Into a `std::string`. -/
def readString : Reader Bytes := fun s =>
  let s := s.dropWhile isSpace
  let word := s.takeWhile fun c => !isSpace c
  if word = [] then none else some (word, s.dropWhile fun c => !isSpace c)

/-- A sign, if there is one. -/
def takeSign : Bytes → Bool × Bytes
  | 45 :: s => (true, s)
  | 43 :: s => (false, s)
  | s => (false, s)

/-- The digits of a number behind white space and a sign. -/
def readDigits : Reader (Bool × Nat) := fun s =>
  let (neg, s) := takeSign (s.dropWhile isSpace)
  let ds := s.takeWhile isDigit
  if ds = [] then none else some ((neg, digitsValue ds), s.dropWhile isDigit)

/-- Into an `int`; out of range the stream fails. -/
def readInt : Reader (BitVec 32) :=
  readDigits.bind fun p s =>
    let i : Int := if p.1 then -p.2 else p.2
    if -2 ^ 31 ≤ i ∧ i < 2 ^ 31 then some (BitVec.ofInt 32 i, s) else none

/-- Into a `size_t`; a number with a minus sign wraps around. -/
def readSize : Reader Nat :=
  readDigits.bind fun p s =>
    if p.2 < 2 ^ 64 then some (if p.1 then (2 ^ 64 - p.2) % 2 ^ 64 else p.2, s) else none

/-- Into a `bool`, without `boolalpha`: any number but 0 and 1 makes the stream fail. -/
def readBool : Reader Bool :=
  readDigits.bind fun p s => if p.2 = 0 then some (false, s) else if p.2 = 1 ∧ p.1 = false then some (true, s) else none

def writeInt (i : BitVec 32) : Bytes := decimalInt i.toInt
def writeSize (n : Nat) : Bytes := decimal n
def writeBool (b : Bool) : Bytes := if b then [49] else [48]

/-! ## Reading what was written -/

def Spaces (ws : Bytes) : Prop := ∀ c ∈ ws, isSpace c = true

/-- White space or the end of the text. -/
def Ends (rest : Bytes) : Prop := StopsAt (fun c => !isSpace c) rest

/-- The reader takes the text, and white space before it, as `a`, and may leave white space of its end. -/
def ReadsOn {α : Type} (r : Reader α) (text : Bytes) (a : α) (rest : Bytes) : Prop :=
  ∀ ws, Spaces ws → ∃ ws', Spaces ws' ∧ r (ws ++ (text ++ rest)) = some (a, ws' ++ rest)

/-- It does so where white space or the end follows. -/
def Reads {α : Type} (r : Reader α) (text : Bytes) (a : α) : Prop := ∀ rest, Ends rest → ReadsOn r text a rest

/-- It does so whatever follows. -/
def ReadsAny {α : Type} (r : Reader α) (text : Bytes) (a : α) : Prop := ∀ rest, ReadsOn r text a rest

theorem spaces_nil : Spaces [] := by
  intro c hc
  cases hc

theorem spaces_append {ws ws' : Bytes} (h : Spaces ws) (h' : Spaces ws') : Spaces (ws ++ ws') := by
  intro c hc
  rcases List.mem_append.1 hc with hc | hc
  · exact h c hc
  · exact h' c hc

theorem spaces_singleton {c : UInt8} (hc : isSpace c = true) : Spaces [c] := by
  intro c' hc'
  rw [List.mem_singleton.1 hc']
  exact hc

theorem ends_cons {c : UInt8} (hc : isSpace c = true) (rest : Bytes) : Ends (c :: rest) := by
  intro c' hc'
  obtain rfl : c = c' := Option.some.inj hc'
  show (!isSpace c) = false
  rw [hc]
  rfl

section

variable {α β : Type} {r : Reader α} {f : α → Reader β} {a : α} {b : β} {text text' rest : Bytes}

theorem ReadsOn.bind (h : ReadsOn r text a (text' ++ rest)) (h' : ReadsOn (f a) text' b rest) :
    ReadsOn (r.bind f) (text ++ text') b rest := by
  intro ws hws
  obtain ⟨ws1, hws1, hr⟩ := h ws hws
  obtain ⟨ws2, hws2, hf⟩ := h' ws1 hws1
  refine ⟨ws2, hws2, ?_⟩
  unfold Reader.bind
  rw [List.append_assoc, hr, Option.bind_some]
  exact hf

/-- White space before a text. -/
theorem ReadsOn.space (h : ReadsOn r text a rest) {sep : UInt8} (hsep : isSpace sep = true) :
    ReadsOn r (sep :: text) a rest := by
  intro ws hws
  obtain ⟨ws', hws', hr⟩ := h (ws ++ [sep]) (spaces_append hws (spaces_singleton hsep))
  refine ⟨ws', hws', ?_⟩
  rw [List.append_assoc] at hr
  exact hr

/-- One white space character between two texts. -/
theorem Reads.bind (h : Reads r text a) {sep : UInt8} (hsep : isSpace sep = true) (h' : Reads (f a) text' b) :
    Reads (r.bind f) (text ++ sep :: text') b := fun rest hrest =>
  (h _ (ends_cons hsep _)).bind ((h' rest hrest).space hsep)

theorem Reads.bindAny (h : Reads r text a) {sep : UInt8} (hsep : isSpace sep = true) (h' : ReadsAny (f a) text' b) :
    ReadsAny (r.bind f) (text ++ sep :: text') b := fun rest =>
  (h _ (ends_cons hsep _)).bind ((h' rest).space hsep)

theorem ReadsAny.bind (h : ReadsAny r text a) (h' : ReadsAny (f a) text' b) :
    ReadsAny (r.bind f) (text ++ text') b := fun rest => (h _).bind (h' rest)

theorem ReadsOn.map (h : ReadsOn r text a rest) (g : α → β) : ReadsOn (r.map g) text (g a) rest := by
  intro ws hws
  obtain ⟨ws', hws', hr⟩ := h ws hws
  refine ⟨ws', hws', ?_⟩
  unfold Reader.map Reader.bind
  rw [hr]
  rfl

/-- The reader of nothing. -/
theorem readsOn_pure (a : α) (rest : Bytes) : ReadsOn (Reader.pure a) [] a rest := fun ws hws => ⟨ws, hws, rfl⟩

/-- Values with white space behind each. -/
theorem readsAny_many {write : α → Bytes} {sep : Bytes} (hsep : Spaces sep) (hne : sep ≠ []) {as : List α}
    (h : ∀ a ∈ as, Reads r (write a) a) : ReadsAny (r.many as.length) (as.flatMap fun a => write a ++ sep) as := by
  induction as with
  | nil => exact fun rest => readsOn_pure [] rest
  | cons a as ih =>
      intro rest
      have hends : Ends (sep ++ ((as.flatMap fun a => write a ++ sep) ++ rest)) := by
        cases sep with
        | nil => exact absurd rfl hne
        | cons c sep => exact ends_cons (hsep c List.mem_cons_self) _
      intro ws hws
      obtain ⟨ws1, hws1, hfirst⟩ := h a List.mem_cons_self _ hends ws hws
      obtain ⟨ws2, hws2, hothers⟩ := ih (fun a' ha' => h a' (List.mem_cons_of_mem _ ha')) rest (ws1 ++ sep)
        (spaces_append hws1 hsep)
      refine ⟨ws2, hws2, ?_⟩
      rw [List.length_cons, List.flatMap_cons, List.append_assoc, List.append_assoc]
      show (r (ws ++ (write a ++ (sep ++ _)))).bind (fun p => ((r.many as.length).map (p.1 :: ·)) p.2) = _
      rw [hfirst, Option.bind_some]
      show ((r.many as.length) (ws1 ++ (sep ++ _))).bind (fun p => some (a :: p.1, p.2)) = _
      rw [← List.append_assoc, hothers]
      rfl

/-- Values with a white space character before each. -/
theorem reads_many {write : α → Bytes} {sep : UInt8} (hsep : isSpace sep = true) {as : List α}
    (h : ∀ a ∈ as, Reads r (write a) a) : Reads (r.many as.length) (as.flatMap fun a => sep :: write a) as := by
  induction as with
  | nil => exact fun rest _ => readsOn_pure [] rest
  | cons a as ih =>
      intro rest hrest
      rw [List.flatMap_cons]
      refine ReadsOn.bind ((h a List.mem_cons_self _ ?_).space hsep)
        ((ih (fun a' ha' => h a' (List.mem_cons_of_mem _ ha')) rest hrest).map _)
      cases as with
      | nil => exact hrest
      | cons a' as => exact ends_cons hsep _

/-- Behind a text there are values with a white space character before each. -/
theorem Reads.bindMany {write : β → Bytes} {sep : UInt8} (hsep : isSpace sep = true) {bs : List β} {γ : Type} {c : γ}
    {f : α → Reader γ} (h : Reads r text a) (h' : Reads (f a) (bs.flatMap fun b => sep :: write b) c) :
    Reads (r.bind f) (text ++ bs.flatMap fun b => sep :: write b) c := by
  intro rest hrest
  refine (h _ ?_).bind (h' rest hrest)
  cases bs with
  | nil => exact hrest
  | cons b bs => exact ends_cons hsep _

end

/-- A reader of one word takes it and nothing behind it. -/
def ReadsExactly {α : Type} (r : Reader α) (text : Bytes) (a : α) : Prop :=
  ∀ ws rest, Spaces ws → Ends rest → r (ws ++ (text ++ rest)) = some (a, rest)

theorem ReadsExactly.reads {α : Type} {r : Reader α} {text : Bytes} {a : α} (h : ReadsExactly r text a) :
    Reads r text a := fun rest hrest ws hws => ⟨[], spaces_nil, h ws rest hws hrest⟩

/-- A name: not empty, and without white space. -/
def IsName (s : Bytes) : Prop := s ≠ [] ∧ ∀ c ∈ s, isSpace c = false

instance (s : Bytes) : Decidable (IsName s) := inferInstanceAs (Decidable (_ ∧ _))

/-- White space in front is passed over. -/
theorem dropWhile_space {ws text : Bytes} (hws : Spaces ws) (htext : StopsAt isSpace text) :
    (ws ++ text).dropWhile isSpace = text := (takeWhile_append_stops hws htext).2

theorem readString_name {s : Bytes} (hs : IsName s) : Reads readString s s := by
  apply ReadsExactly.reads
  intro ws rest hws hrest
  have hstop : StopsAt isSpace (s ++ rest) := by
    cases s with
    | nil => exact absurd rfl hs.1
    | cons c s =>
        intro c' hc'
        obtain rfl : c = c' := Option.some.inj hc'
        exact hs.2 c List.mem_cons_self
  have hword : ∀ c ∈ s, (!isSpace c) = true := by
    intro c hc
    rw [hs.2 c hc]
    rfl
  obtain ⟨htake, hdrop⟩ := takeWhile_append_stops hword hrest
  unfold readString
  simp only [dropWhile_space hws hstop, htake, hdrop]
  rw [if_neg hs.1]

theorem isSpace_of_isDigit : ∀ c : UInt8, isDigit c = true → isSpace c = false := by decide +kernel

theorem isDigit_of_isSpace : ∀ c : UInt8, isSpace c = true → isDigit c = false := by decide +kernel

theorem not_sign_of_isDigit : ∀ c : UInt8, isDigit c = true → c ≠ 45 ∧ c ≠ 43 := by decide +kernel

theorem Ends.digits {rest : Bytes} (h : Ends rest) : StopsAt isDigit rest := by
  intro c hc
  refine isDigit_of_isSpace c ?_
  have := h c hc
  simpa using this

theorem takeSign_decimal (n : Nat) (rest : Bytes) : takeSign (decimal n ++ rest) = (false, decimal n ++ rest) := by
  cases hd : decimal n with
  | nil => exact absurd hd (decimal_ne_nil n)
  | cons c ds =>
      have hc := not_sign_of_isDigit c (isDigit_of_mem_decimal c (by rw [hd]; exact List.mem_cons_self))
      rw [List.cons_append]
      unfold takeSign
      split
      · next heq => exact absurd (List.cons.inj heq).1 hc.1
      · next heq => exact absurd (List.cons.inj heq).1 hc.2
      · rfl

theorem readDigits_decimal (n : Nat) : ReadsExactly readDigits (decimal n) (false, n) := by
  intro ws rest hws hrest
  have hstop : StopsAt isSpace (decimal n ++ rest) := by
    cases hd : decimal n with
    | nil => exact absurd hd (decimal_ne_nil n)
    | cons c ds =>
        intro c' hc'
        obtain rfl : c = c' := Option.some.inj hc'
        exact isSpace_of_isDigit c (isDigit_of_mem_decimal c (by rw [hd]; exact List.mem_cons_self))
  obtain ⟨htake, hdrop⟩ := takeWhile_decimal n hrest.digits
  unfold readDigits
  simp only [dropWhile_space hws hstop, takeSign_decimal, htake, hdrop, digitsValue_decimal]
  rw [if_neg (decimal_ne_nil n)]

theorem readDigits_minus (n : Nat) : ReadsExactly readDigits (45 :: decimal n) (true, n) := by
  intro ws rest hws hrest
  have hstop : StopsAt isSpace (45 :: (decimal n ++ rest)) := by
    intro c hc
    obtain rfl : 45 = c := Option.some.inj hc
    decide
  obtain ⟨htake, hdrop⟩ := takeWhile_decimal n hrest.digits
  unfold readDigits
  have hsign : takeSign (45 :: (decimal n ++ rest)) = (true, decimal n ++ rest) := rfl
  simp only [List.cons_append, dropWhile_space hws hstop, hsign, htake, hdrop, digitsValue_decimal]
  rw [if_neg (decimal_ne_nil n)]

theorem readInt_writeInt (i : BitVec 32) : Reads readInt (writeInt i) i := by
  have hrange : -2 ^ 31 ≤ i.toInt ∧ i.toInt < 2 ^ 31 := ⟨BitVec.le_toInt i, BitVec.toInt_lt⟩
  apply ReadsExactly.reads
  intro ws rest hws hrest
  unfold writeInt decimalInt readInt Reader.bind
  by_cases hneg : i.toInt < 0
  · rw [if_pos hneg, readDigits_minus _ ws rest hws hrest, Option.bind_some]
    have hval : -((i.toInt.natAbs : Nat) : Int) = i.toInt := by omega
    simp only [if_true, hval]
    rw [if_pos hrange, BitVec.ofInt_toInt]
  · rw [if_neg hneg, readDigits_decimal _ ws rest hws hrest, Option.bind_some]
    have hval : ((i.toInt.natAbs : Nat) : Int) = i.toInt := by omega
    simp only [Bool.false_eq_true, if_false, hval]
    rw [if_pos hrange, BitVec.ofInt_toInt]

theorem readSize_writeSize {n : Nat} (hn : n < 2 ^ 64) : Reads readSize (writeSize n) n := by
  apply ReadsExactly.reads
  intro ws rest hws hrest
  unfold readSize writeSize Reader.bind
  rw [readDigits_decimal _ ws rest hws hrest, Option.bind_some]
  simp only [if_pos hn, Bool.false_eq_true, if_false]

theorem readBool_writeBool (b : Bool) : Reads readBool (writeBool b) b := by
  apply ReadsExactly.reads
  intro ws rest hws hrest
  unfold readBool Reader.bind
  cases b with
  | false =>
      rw [show writeBool false = decimal 0 from rfl, readDigits_decimal _ ws rest hws hrest]
      rfl
  | true =>
      rw [show writeBool true = decimal 1 from rfl, readDigits_decimal _ ws rest hws hrest]
      rfl

end Rmdb.Catalog
