import Rmdb.Lib.FloatOrder
import Rmdb.Query.Executors
import Rmdb.Txn.Words

/-!
# Comparisons of columns and keys

A comparison reads the first `len` bytes of each side.  The keys of an index without NaN are
ordered by their codes, the lists of their columns' values (`ixCompare_code`).
-/

namespace Rmdb.Query

open Rmdb.Lib
open Rmdb.Txn

/-- `INT` and `FLOAT` columns take four bytes. -/
def Words (c : ColMeta) : Prop := c.type ≠ .string → c.len = 4

/-- A column whose equal values have equal bytes. -/
def Discrete (c : ColMeta) : Prop := c.type ≠ .float

instance (c : ColMeta) : Decidable (Words c) := inferInstanceAs (Decidable (_ → _))
instance (c : ColMeta) : Decidable (Discrete c) := inferInstanceAs (Decidable (_ ≠ _))

variable {c : ColMeta} {a b x y : Bytes}

/-! ## One column -/

theorem memcmp_congr : ∀ {n : Nat} {a a' b b' : Bytes}, a.take n = a'.take n → b.take n = b'.take n →
    Index.memcmp n a b = Index.memcmp n a' b' := by
  intro n
  induction n with
  | zero => intro a a' b b' _ _; simp [Index.memcmp]
  | succ n ih =>
      intro a a' b b' ha hb
      cases a with
      | nil =>
          cases a' with
          | nil => simp [Index.memcmp]
          | cons => simp at ha
      | cons x a =>
          cases a' with
          | nil => simp at ha
          | cons x' a' =>
              simp only [List.take_succ_cons, List.cons.injEq] at ha
              obtain ⟨rfl, ha⟩ := ha
              cases b with
              | nil =>
                  cases b' with
                  | nil => simp [Index.memcmp]
                  | cons => simp at hb
              | cons y b =>
                  cases b' with
                  | nil => simp at hb
                  | cons y' b' =>
                      simp only [List.take_succ_cons, List.cons.injEq] at hb
                      obtain ⟨rfl, hb⟩ := hb
                      simp only [Index.memcmp, ih ha hb]

theorem getWord_take_congr (h : a.take 4 = b.take 4) : getWord a 0 = getWord b 0 := by
  apply getWord_congr
  intro i _ hi
  have := congrArg (fun l => l[i]?) h
  simpa [List.getElem?_take_of_lt (show i < 4 by omega)] using this

/-- A comparison reads the first `len` bytes of each side. -/
theorem cmpBytes_congr {a' b' : Bytes} (hw : Words c) (ha : a.take c.len = a'.take c.len)
    (hb : b.take c.len = b'.take c.len) :
    cmpBytes a b c.len c.type = cmpBytes a' b' c.len c.type := by
  cases htype : c.type with
  | string => exact memcmp_congr ha hb
  | int =>
      rw [hw (by rw [htype]; decide)] at ha hb
      simp only [cmpBytes, getWord_take_congr ha, getWord_take_congr hb]
  | float =>
      rw [hw (by rw [htype]; decide)] at ha hb
      simp only [cmpBytes, getWord_take_congr ha, getWord_take_congr hb]

theorem cmpBytes_append (hw : Words c) (ha : c.len ≤ a.length) (hb : c.len ≤ b.length) :
    cmpBytes (a ++ x) (b ++ y) c.len c.type = cmpBytes a b c.len c.type :=
  cmpBytes_congr hw (List.take_append_of_le_length ha) (List.take_append_of_le_length hb)

theorem cmpBytes_getBytes (hw : Words c) (b : Bytes) :
    cmpBytes (getBytes a c.offset c.len) b c.len c.type =
      cmpBytes (a.drop c.offset) b c.len c.type :=
  cmpBytes_congr hw (List.take_take.trans (by rw [Nat.min_self])) rfl

theorem memcmp_self : ∀ (n : Nat) (a : Bytes), Index.memcmp n a a = 0 := by
  intro n
  induction n with
  | zero => intro a; simp [Index.memcmp]
  | succ n ih =>
      intro a
      cases a with
      | nil => simp [Index.memcmp]
      | cons x a => simp [Index.memcmp, ih]

theorem cmpBytes_self (a : Bytes) (len : Nat) (type : ColType) : cmpBytes a a len type = 0 := by
  cases type with
  | int => simp [cmpBytes]
  | float => simp only [cmpBytes, gt_iff_lt, if_neg (float_lt_irrefl _)]
  | string => exact memcmp_self len a

theorem extract_byte0 (a b c d : BitVec 8) : (a ++ b ++ c ++ d).extractLsb' 0 8 = d := by
  apply BitVec.eq_of_getLsbD_eq
  intro i hi
  simp only [BitVec.getLsbD_extractLsb', BitVec.getLsbD_append]
  simp [hi]

theorem extract_byte1 (a b c d : BitVec 8) : (a ++ b ++ c ++ d).extractLsb' 8 8 = c := by
  apply BitVec.eq_of_getLsbD_eq
  intro i hi
  simp only [BitVec.getLsbD_extractLsb', BitVec.getLsbD_append]
  simp [hi]

theorem extract_byte2 (a b c d : BitVec 8) : (a ++ b ++ c ++ d).extractLsb' 16 8 = b := by
  apply BitVec.eq_of_getLsbD_eq
  intro i hi
  simp only [BitVec.getLsbD_extractLsb', BitVec.getLsbD_append]
  rw [if_neg (by omega), if_neg (by omega), if_pos (by omega), decide_eq_true hi, Bool.true_and,
    show 16 + i - 8 - 8 = i by omega]

theorem extract_byte3 (a b c d : BitVec 8) : (a ++ b ++ c ++ d).extractLsb' 24 8 = a := by
  apply BitVec.eq_of_getLsbD_eq
  intro i hi
  simp only [BitVec.getLsbD_extractLsb', BitVec.getLsbD_append]
  rw [if_neg (by omega), if_neg (by omega), if_neg (by omega), decide_eq_true hi, Bool.true_and,
    show 24 + i - 8 - 8 - 8 = i by omega]

theorem wordBytes_getWord {a : Bytes} (ha : a.length = 4) : wordBytes (getWord a 0) = a := by
  obtain ⟨a0, a1, a2, a3, rfl⟩ : ∃ a0 a1 a2 a3, a = [a0, a1, a2, a3] := by
    match a, ha with
    | [a0, a1, a2, a3], _ => exact ⟨a0, a1, a2, a3, rfl⟩
  have h : getWord [a0, a1, a2, a3] 0 = a3.toBitVec ++ a2.toBitVec ++ a1.toBitVec ++ a0.toBitVec := rfl
  rw [h, wordBytes, extract_byte0, extract_byte1, extract_byte2, extract_byte3]

theorem word_inj {a b : Bytes} (ha : a.length = 4) (hb : b.length = 4)
    (h : getWord a 0 = getWord b 0) : a = b := by
  rw [← wordBytes_getWord ha, ← wordBytes_getWord hb, h]

/-- Equal `INT` or `CHAR` values have equal bytes. -/
theorem bytes_eq_of_cmpBytes (hw : Words c) (hd : Discrete c) (ha : c.len ≤ a.length)
    (hb : c.len ≤ b.length) (h : cmpBytes a b c.len c.type = 0) : a.take c.len = b.take c.len := by
  cases htype : c.type with
  | string =>
      rw [htype] at h
      exact (Index.memcmp_eq_iff ha hb).1 h
  | float => exact absurd htype hd
  | int =>
      have h4 := hw (by rw [htype]; decide)
      rw [htype, h4] at h
      rw [h4] at ha hb ⊢
      apply word_inj (List.length_take_of_le ha) (List.length_take_of_le hb)
      rw [getWord_take_congr (List.take_take.trans (by rw [Nat.min_self]) : (a.take 4).take 4 = a.take 4),
        getWord_take_congr (List.take_take.trans (by rw [Nat.min_self]) : (b.take 4).take 4 = b.take 4)]
      apply BitVec.eq_of_toInt_eq
      simp only [cmpBytes] at h
      by_contra hne
      rcases lt_or_gt_of_ne hne with hlt | hgt
      · rw [if_pos hlt] at h
        cases h
      · rw [if_neg (not_lt_of_gt hgt), if_pos hgt] at h
        cases h

/-! ## Codes -/

/-- The value of a column as a list of integers, of one length for each column. -/
def colCode (c : ColMeta) (a : Bytes) : List Int :=
  match c.type with
  | .int => [(getWord a 0).toInt]
  | .float => floatCode (Float32.ofBits ⟨getWord a 0⟩)
  | .string => (a.take c.len).map fun x => (x.toNat : Int)

def NaNFree (c : ColMeta) (a : Bytes) : Prop :=
  c.type = .float → ¬ IsNaN (Float32.ofBits ⟨getWord a 0⟩)

theorem colCode_int (h : c.type = .int) : colCode c a = [(getWord a 0).toInt] := by
  unfold colCode
  rw [h]

theorem colCode_float (h : c.type = .float) :
    colCode c a = floatCode (Float32.ofBits ⟨getWord a 0⟩) := by
  unfold colCode
  rw [h]

theorem colCode_string (h : c.type = .string) :
    colCode c a = (a.take c.len).map fun x => (x.toNat : Int) := by
  unfold colCode
  rw [h]

theorem colCode_length (ha : c.len ≤ a.length) (hb : c.len ≤ b.length) :
    (colCode c a).length = (colCode c b).length := by
  cases htype : c.type with
  | int => rw [colCode_int htype, colCode_int htype, List.length_singleton, List.length_singleton]
  | float => rw [colCode_float htype, colCode_float htype, floatCode_length, floatCode_length]
  | string =>
      rw [colCode_string htype, colCode_string htype]
      simp [Nat.min_eq_left ha, Nat.min_eq_left hb]

theorem colCode_congr (hw : Words c) (h : a.take c.len = b.take c.len) :
    colCode c a = colCode c b := by
  cases htype : c.type with
  | int =>
      rw [hw (by rw [htype]; decide)] at h
      rw [colCode_int htype, colCode_int htype, getWord_take_congr h]
  | float =>
      rw [hw (by rw [htype]; decide)] at h
      rw [colCode_float htype, colCode_float htype, getWord_take_congr h]
  | string => rw [colCode_string htype, colCode_string htype, h]

theorem nanFree_congr (hw : Words c) (h : a.take c.len = b.take c.len) :
    NaNFree c a ↔ NaNFree c b := by
  unfold NaNFree
  refine forall_congr' fun htype => ?_
  rw [hw (by rw [htype]; decide)] at h
  rw [getWord_take_congr h]

/-- A three-way comparison of values with a linear order. -/
theorem three_way {α : Type*} [LinearOrder α] (u v : α) [Decidable (u < v)] [Decidable (v < u)] :
    ((if u < v then (-1 : Int) else if v < u then 1 else 0) < 0 ↔ u < v) ∧
      ((if u < v then (-1 : Int) else if v < u then 1 else 0) = 0 ↔ u = v) := by
  rcases lt_trichotomy u v with hlt | heq | hgt
  · rw [if_pos hlt]
    exact ⟨⟨fun _ => hlt, fun _ => by decide⟩, ⟨fun h => absurd h (by decide), fun h => absurd h hlt.ne⟩⟩
  · rw [if_neg heq.not_lt, if_neg heq.not_gt]
    exact ⟨⟨fun h => absurd h (by decide), fun h => absurd h heq.not_lt⟩, ⟨fun _ => heq, fun _ => rfl⟩⟩
  · rw [if_neg (not_lt_of_gt hgt), if_pos hgt]
    exact ⟨⟨fun h => absurd h (by decide), fun h => absurd h (not_lt_of_gt hgt)⟩,
      ⟨fun h => absurd h (by decide), fun h => absurd h hgt.ne'⟩⟩

theorem cmpBytes_code (ha : c.len ≤ a.length) (hb : c.len ≤ b.length)
    (hna : NaNFree c a) (hnb : NaNFree c b) :
    (cmpBytes a b c.len c.type < 0 ↔ colCode c a < colCode c b) ∧
      (cmpBytes a b c.len c.type = 0 ↔ colCode c a = colCode c b) := by
  cases htype : c.type with
  | int =>
      obtain ⟨h1, h2⟩ := three_way (getWord a 0).toInt (getWord b 0).toInt
      rw [colCode_int htype, colCode_int htype]
      simp only [cmpBytes, gt_iff_lt, h1, h2]
      simp [List.cons_lt_cons_iff]
  | float =>
      have hlt := float_lt_iff (hna htype) (hnb htype)
      have hgt := float_lt_iff (hnb htype) (hna htype)
      rw [colCode_float htype, colCode_float htype]
      simp only [cmpBytes, gt_iff_lt]
      generalize Float32.ofBits ⟨getWord a 0⟩ = f at hlt hgt
      generalize Float32.ofBits ⟨getWord b 0⟩ = g at hlt hgt
      obtain ⟨h1, h2⟩ := three_way (floatCode f) (floatCode g)
      simp only [hlt, hgt]
      exact ⟨h1, h2⟩
  | string =>
      rw [colCode_string htype, colCode_string htype]
      refine ⟨Index.memcmp_lt_iff ha hb, (Index.memcmp_eq_iff ha hb).trans ⟨fun h => by rw [h], ?_⟩⟩
      exact fun h => List.map_injective_iff.2
        (fun x y hxy => UInt8.toNat_inj.1 (Int.ofNat_inj.1 hxy)) h

/-! ## Keys -/

def keyLen (cols : List ColMeta) : Nat := (cols.map ColMeta.len).sum

def keyCode : List ColMeta → Bytes → List Int
  | [], _ => []
  | c :: cs, a => colCode c a ++ keyCode cs (a.drop c.len)

def KeyNaNFree : List ColMeta → Bytes → Prop
  | [], _ => True
  | c :: cs, a => NaNFree c a ∧ KeyNaNFree cs (a.drop c.len)

theorem ixCompare_code : ∀ {cols : List ColMeta} {a b : Bytes}, a.length = keyLen cols →
    b.length = keyLen cols → KeyNaNFree cols a → KeyNaNFree cols b →
    (ixCompare cols a b < 0 ↔ keyCode cols a < keyCode cols b) ∧
      (ixCompare cols a b = 0 ↔ keyCode cols a = keyCode cols b) := by
  intro cols
  induction cols with
  | nil => intro a b _ _ _ _; simp [ixCompare, keyCode]
  | cons c cs ih =>
      intro a b ha hb hna hnb
      simp only [keyLen, List.map_cons, List.sum_cons] at ha hb
      have hla : c.len ≤ a.length := by omega
      have hlb : c.len ≤ b.length := by omega
      have hlen := colCode_length hla hlb
      obtain ⟨h1, h2⟩ := ih (a := a.drop c.len) (b := b.drop c.len)
        (by rw [List.length_drop, keyLen]; omega) (by rw [List.length_drop, keyLen]; omega)
        hna.2 hnb.2
      obtain ⟨hlt, heq⟩ := cmpBytes_code hla hlb hna.1 hnb.1
      have happ : colCode c a ++ keyCode cs (a.drop c.len) =
          colCode c b ++ keyCode cs (b.drop c.len) ↔
          colCode c a = colCode c b ∧ keyCode cs (a.drop c.len) = keyCode cs (b.drop c.len) :=
        ⟨fun h => List.append_inj h hlen, fun h => by rw [h.1, h.2]⟩
      simp only [ixCompare, keyCode, Index.append_lt_append_iff hlen, happ, ← h1, ← h2, ← hlt, ← heq]
      split
      · next hne => simp [hne]
      · next h0 =>
        rw [not_not] at h0
        simp [h0]

/-! ## Keys in two parts -/

theorem keyLen_append (pre rest : List ColMeta) :
    keyLen (pre ++ rest) = keyLen pre + keyLen rest := by
  simp [keyLen]

/-- Keys with a common part under the first columns are compared by the rest. -/
theorem ixCompare_append : ∀ {pre rest : List ColMeta} {k x y : Bytes}, (∀ c ∈ pre, Words c) →
    k.length = keyLen pre → ixCompare (pre ++ rest) (k ++ x) (k ++ y) = ixCompare rest x y := by
  intro pre
  induction pre with
  | nil =>
      intro rest k x y _ hk
      rw [List.length_eq_zero_iff.1 hk]
      rfl
  | cons c cs ih =>
      intro rest k x y hw hk
      simp only [keyLen, List.map_cons, List.sum_cons] at hk
      have hc : cmpBytes (k ++ x) (k ++ y) c.len c.type = 0 := by
        rw [cmpBytes_append (hw c List.mem_cons_self) (by omega) (by omega), cmpBytes_self]
      have hdrop : ∀ z : Bytes, (k ++ z).drop c.len = k.drop c.len ++ z := fun z =>
        List.drop_append_of_le_length (by omega)
      rw [List.cons_append, ixCompare, hc, hdrop, hdrop]
      simp only [ne_eq, not_true_eq_false, if_false]
      exact ih (fun c hc => hw c (List.mem_cons_of_mem _ hc)) (by rw [List.length_drop, keyLen]; omega)

theorem ixCompare_cons {cs : List ColMeta} {v w x y : Bytes} (hw : Words c) (hv : v.length = c.len)
    (hw' : w.length = c.len) : ixCompare (c :: cs) (v ++ x) (w ++ y) =
      if cmpBytes v w c.len c.type ≠ 0 then cmpBytes v w c.len c.type else ixCompare cs x y := by
  rw [ixCompare, cmpBytes_append hw (by omega) (by omega), List.drop_left' hv, List.drop_left' hw']

theorem keyCode_append : ∀ {pre rest : List ColMeta} {k x : Bytes}, (∀ c ∈ pre, Words c) →
    k.length = keyLen pre → keyCode (pre ++ rest) (k ++ x) = keyCode pre k ++ keyCode rest x := by
  intro pre
  induction pre with
  | nil =>
      intro rest k x _ hk
      rw [List.length_eq_zero_iff.1 hk]
      rfl
  | cons c cs ih =>
      intro rest k x hw hk
      simp only [keyLen, List.map_cons, List.sum_cons] at hk
      have hcol : colCode c (k ++ x) = colCode c k := colCode_congr (hw c List.mem_cons_self)
        (List.take_append_of_le_length (by omega))
      rw [List.cons_append, keyCode, keyCode, hcol, List.drop_append_of_le_length (by omega),
        ih (fun c hc => hw c (List.mem_cons_of_mem _ hc)) (by rw [List.length_drop, keyLen]; omega),
        List.append_assoc]

theorem keyNaNFree_append : ∀ {pre rest : List ColMeta} {k x : Bytes}, (∀ c ∈ pre, Words c) →
    k.length = keyLen pre → (KeyNaNFree (pre ++ rest) (k ++ x) ↔ KeyNaNFree pre k ∧ KeyNaNFree rest x) := by
  intro pre
  induction pre with
  | nil =>
      intro rest k x _ hk
      rw [List.length_eq_zero_iff.1 hk]
      simp [KeyNaNFree]
  | cons c cs ih =>
      intro rest k x hw hk
      simp only [keyLen, List.map_cons, List.sum_cons] at hk
      have hcol : NaNFree c (k ++ x) ↔ NaNFree c k := nanFree_congr (hw c List.mem_cons_self)
        (List.take_append_of_le_length (by omega))
      rw [List.cons_append, KeyNaNFree, KeyNaNFree, hcol, List.drop_append_of_le_length (by omega),
        ih (fun c hc => hw c (List.mem_cons_of_mem _ hc)) (by rw [List.length_drop, keyLen]; omega),
        and_assoc]

theorem keyCode_length : ∀ {cols : List ColMeta} {a b : Bytes}, a.length = keyLen cols →
    b.length = keyLen cols → (keyCode cols a).length = (keyCode cols b).length := by
  intro cols
  induction cols with
  | nil => intro a b _ _; rfl
  | cons c cs ih =>
      intro a b ha hb
      simp only [keyLen, List.map_cons, List.sum_cons] at ha hb
      have hcol : (colCode c a).length = (colCode c b).length :=
        colCode_length (by omega) (by omega)
      have hrest := ih (a := a.drop c.len) (b := b.drop c.len)
        (by rw [List.length_drop, keyLen]; omega) (by rw [List.length_drop, keyLen]; omega)
      rw [keyCode, keyCode, List.length_append, List.length_append, hcol, hrest]

/-- Keys over `INT` and `CHAR` columns are determined by their codes. -/
theorem key_eq_of_code {cols : List ColMeta} {a b : Bytes} (hw : ∀ c ∈ cols, Words c)
    (hd : ∀ c ∈ cols, Discrete c) (ha : a.length = keyLen cols) (hb : b.length = keyLen cols)
    (h : ixCompare cols a b = 0) : a = b := by
  induction cols generalizing a b with
  | nil => rw [List.length_eq_zero_iff.1 ha, List.length_eq_zero_iff.1 hb]
  | cons c cs ih =>
      simp only [keyLen, List.map_cons, List.sum_cons] at ha hb
      unfold ixCompare at h
      by_cases hc : cmpBytes a b c.len c.type = 0
      · simp only [hc, ne_eq, not_true_eq_false, if_false] at h
        have htake := bytes_eq_of_cmpBytes (hw c List.mem_cons_self) (hd c List.mem_cons_self)
          (by omega) (by omega) hc
        have hdrop := ih (fun c hc => hw c (List.mem_cons_of_mem _ hc))
          (fun c hc => hd c (List.mem_cons_of_mem _ hc)) (by rw [List.length_drop, keyLen]; omega)
          (by rw [List.length_drop, keyLen]; omega) h
        rw [← List.take_append_drop c.len a, ← List.take_append_drop c.len b, htake, hdrop]
      · simp only [ne_eq, hc, not_false_eq_true, if_true] at h

theorem keyNaNFree_of_discrete : ∀ {cols : List ColMeta}, (∀ c ∈ cols, Discrete c) →
    ∀ a : Bytes, KeyNaNFree cols a := by
  intro cols
  induction cols with
  | nil => intro _ _; trivial
  | cons c cs ih =>
      intro hd a
      exact ⟨fun h => absurd h (hd c List.mem_cons_self),
        ih (fun c hc => hd c (List.mem_cons_of_mem _ hc)) _⟩

/-! ## The filled keys -/

theorem fillExtreme_cons (wantMax : Bool) (cs : List ColMeta) :
    Db.fillExtreme wantMax (c :: cs) = Db.fillExtreme wantMax [c] ++ Db.fillExtreme wantMax cs := by
  simp [Db.fillExtreme]

theorem fillExtreme_single_length (wantMax : Bool) (hw : Words c) :
    (Db.fillExtreme wantMax [c]).length = c.len := by
  unfold Db.fillExtreme
  rw [List.flatMap_singleton]
  cases htype : c.type with
  | int => exact (hw (by rw [htype]; decide)).symm
  | float => exact (hw (by rw [htype]; decide)).symm
  | string => exact List.length_replicate

theorem fillExtreme_length (wantMax : Bool) : ∀ {cols : List ColMeta}, (∀ c ∈ cols, Words c) →
    (Db.fillExtreme wantMax cols).length = keyLen cols := by
  intro cols
  induction cols with
  | nil => intro _; rfl
  | cons c cs ih =>
      intro hw
      rw [fillExtreme_cons, List.length_append, fillExtreme_single_length _ (hw c List.mem_cons_self),
        ih fun c hc => hw c (List.mem_cons_of_mem _ hc)]
      simp [keyLen]

theorem nanFree_fillExtreme (wantMax : Bool) : NaNFree c (Db.fillExtreme wantMax [c]) := by
  intro htype
  have h : Db.fillExtreme wantMax [c] =
      wordBytes (if wantMax then 0x7f7fffff else 0xff7fffff) ++ [] := by
    unfold Db.fillExtreme
    rw [List.flatMap_singleton, htype, List.append_nil]
  rw [h, getWord_wordBytes]
  cases wantMax <;> decide

theorem keyNaNFree_fillExtreme (wantMax : Bool) : ∀ {cols : List ColMeta}, (∀ c ∈ cols, Words c) →
    KeyNaNFree cols (Db.fillExtreme wantMax cols) := by
  intro cols
  induction cols with
  | nil => intro _; trivial
  | cons c cs ih =>
      intro hw
      have hc := hw c List.mem_cons_self
      have hlen := fillExtreme_single_length wantMax hc
      rw [fillExtreme_cons]
      refine (@keyNaNFree_append [c] cs _ _ (by simpa using hc)
        (by simpa [keyLen] using hlen)).2 ⟨⟨nanFree_fillExtreme wantMax, trivial⟩, ?_⟩
      exact ih fun c hc => hw c (List.mem_cons_of_mem _ hc)

end Rmdb.Query
