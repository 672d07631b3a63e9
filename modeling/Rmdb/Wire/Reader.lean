import Rmdb.Lib.Format
import Rmdb.Lib.BigEndian
import Rmdb.Txn.Words

/-!
# Frame payloads

`wire::Reader` of src/common/wire_protocol.h on a byte string, with the addition of its bound check in a
`size_t`.  A byte past the end is a fault of its own.  Each read is an exact decoder (`exact_bytes` and
below): it takes its text where the text stands, throws where the payload is too short, and no byte
past the end is read.
-/

namespace Rmdb.Wire

open Rmdb.Lib (Decoder Format Exact bigEndian bigEndianBytes)
open Rmdb.Txn (Bytes)

/-- `WireProtocolError`, or a byte past the end. -/
inductive Fault where
  | protocol (msg : String)
  | overrun
deriving DecidableEq, Repr

structure Reader where
  data : Bytes
  pos : Nat := 0
deriving DecidableEq, Repr

abbrev Read (α : Type) := Decoder Reader Fault α

namespace Read

def need (n : Nat) : Read Unit := fun r =>
  if r.data.length < (r.pos + n) % 2 ^ 64 then .error (.protocol "truncated frame payload") else .ok ((), r)

/-- `data_[pos_ + i]`. -/
def peek (i : Nat) : Read UInt8 := fun r =>
  match r.data[r.pos + i]? with
  | some b => .ok (b, r)
  | none => .error .overrun

def skip (n : Nat) : Read Unit := fun r => .ok ((), { r with pos := r.pos + n })

def bytes (n : Nat) : Read Bytes := do
  need n
  let p ← (List.range n).mapM peek
  skip n
  pure p

def u8 : Read UInt8 := (·.headD 0) <$> bytes 1
def u16 : Read Nat := bigEndian <$> bytes 2
def u32 : Read Nat := bigEndian <$> bytes 4
def i32 : Read (BitVec 32) := BitVec.ofNat 32 <$> u32

end Read

/-! ## Texts -/

/-- The reader stands before `t`.  No `std::string` has 2^63 bytes. -/
def At (r : Reader) (t : Bytes) : Prop := r.data.length < 2 ^ 63 ∧ r.pos ≤ r.data.length ∧ r.data.drop r.pos = t

def Bad (e : Fault) : Prop := e = .overrun

theorem At.length {r : Reader} {t : Bytes} (h : At r t) : r.pos + t.length = r.data.length := by
  obtain ⟨_, hpos, rfl⟩ := h
  rw [List.length_drop]
  omega

theorem At.getElem? {r : Reader} {t : Bytes} (h : At r t) (i : Nat) : r.data[r.pos + i]? = t[i]? := by
  obtain ⟨_, _, rfl⟩ := h
  rw [List.getElem?_drop]

theorem At.skip {r : Reader} {t rest : Bytes} (h : At r (t ++ rest)) : At { r with pos := r.pos + t.length } rest := by
  have hlen := h.length
  rw [List.length_append] at hlen
  obtain ⟨hdata, hpos, hdrop⟩ := h
  refine ⟨hdata, ?_, ?_⟩
  · show r.pos + t.length ≤ r.data.length
    omega
  · show r.data.drop (r.pos + t.length) = rest
    rw [← List.drop_drop, hdrop, List.drop_left]

theorem peekAll {r : Reader} {t : Bytes} (h : At r t) : ∀ {n k : Nat}, k + n ≤ t.length →
    ((List.range' k n).mapM Read.peek : Read Bytes) r = .ok ((t.drop k).take n, r) := by
  intro n
  induction n with
  | zero =>
      intro k _
      rw [List.take_zero]
      rfl
  | succ n ih =>
      intro k hk
      have hget : r.data[r.pos + k]? = some (t[k]) := by
        rw [h.getElem?, List.getElem?_eq_getElem (by omega)]
      have hpeek : Read.peek k r = .ok (t[k], r) := by
        unfold Read.peek
        rw [hget]
      rw [List.range'_succ, List.mapM_cons, List.drop_eq_getElem_cons (by omega : k < t.length), List.take_succ_cons]
      show (Read.peek k r).bind _ = _
      rw [hpeek]
      show (((List.range' (k + 1) n).mapM Read.peek : Read Bytes) r).bind _ = _
      rw [ih (by omega)]
      rfl

/-- What `bytes` does before a text. -/
theorem bytes_eq {r : Reader} {t : Bytes} (h : At r t) {n : Nat} (hn : n < 2 ^ 63) :
    Read.bytes n r = if n ≤ t.length then .ok (t.take n, { r with pos := r.pos + n })
      else .error (.protocol "truncated frame payload") := by
  have hlen := h.length
  have hmod : (r.pos + n) % 2 ^ 64 = r.pos + n := Nat.mod_eq_of_lt (by have := h.1; omega)
  show (Read.need n r).bind _ = _
  unfold Read.need
  rw [hmod]
  by_cases hle : n ≤ t.length
  · have hall := peekAll h (n := n) (k := 0) (by omega)
    rw [List.drop_zero, ← List.range_eq_range'] at hall
    rw [if_neg (by omega), if_pos hle]
    show (((List.range n).mapM Read.peek : Read Bytes) r).bind _ = _
    rw [hall]
    rfl
  · rw [if_pos (by omega), if_neg hle]
    rfl

theorem exact_bytes {n : Nat} (hn : n < 2 ^ 63) : Exact At Bad (Read.bytes n) fun b t => b.length = n ∧ t = b := by
  constructor
  · rintro r b t rest hr ⟨rfl, rfl⟩
    refine ⟨_, ?_, hr.skip⟩
    rw [bytes_eq hr hn, List.take_left, if_pos (by rw [List.length_append]; omega)]
  · intro r u b r' hr hrun
    rw [bytes_eq hr hn] at hrun
    split at hrun
    · next hle =>
        cases hrun
        have hlen : (u.take n).length = n := List.length_take_of_le hle
        rw [← List.take_append_drop n u] at hr
        have hskip := hr.skip
        rw [hlen] at hskip
        exact ⟨u.take n, u.drop n, (List.take_append_drop n u).symm, ⟨hlen, rfl⟩, hskip⟩
    · cases hrun
  · intro r u e hr hrun
    rw [bytes_eq hr hn] at hrun
    split at hrun
    · cases hrun
    · cases hrun
      exact Fault.noConfusion

theorem exact_u8 : Exact At Bad Read.u8 fun v t => t = [v] := by
  refine ((exact_bytes (by decide)).map _).congr fun v t => ?_
  constructor
  · rintro ⟨b, rfl, hlen, rfl⟩
    obtain ⟨c, rfl⟩ := List.length_eq_one_iff.1 hlen
    rfl
  · rintro rfl
    exact ⟨[v], rfl, rfl, rfl⟩

theorem exact_bigEndian {k : Nat} (hk : k < 2 ^ 63) :
    Exact At Bad (bigEndian <$> Read.bytes k) fun n t => n < 256 ^ k ∧ t = bigEndianBytes k n := by
  refine ((exact_bytes hk).map _).congr fun n t => ?_
  constructor
  · rintro ⟨b, rfl, rfl, rfl⟩
    exact ⟨Lib.bigEndian_lt t, (Lib.bigEndianBytes_bigEndian t).symm⟩
  · rintro ⟨hn, rfl⟩
    exact ⟨bigEndianBytes k n, (Lib.bigEndian_bigEndianBytes hn).symm, Lib.length_bigEndianBytes k n, rfl⟩

theorem exact_u16 : Exact At Bad Read.u16 fun n t => n < 2 ^ 16 ∧ t = bigEndianBytes 2 n := exact_bigEndian (by decide)

theorem exact_u32 : Exact At Bad Read.u32 fun n t => n < 2 ^ 32 ∧ t = bigEndianBytes 4 n := exact_bigEndian (by decide)

theorem exact_i32 : Exact At Bad Read.i32 fun v t => t = bigEndianBytes 4 v.toNat := by
  refine (exact_u32.map _).congr fun v t => ?_
  constructor
  · rintro ⟨n, rfl, hn, rfl⟩
    rw [BitVec.toNat_ofNat, Nat.mod_eq_of_lt hn]
  · rintro rfl
    exact ⟨v.toNat, (BitVec.ofNat_toNat 32 v).symm ▸ (BitVec.setWidth_eq v).symm, v.isLt, rfl⟩

end Rmdb.Wire
