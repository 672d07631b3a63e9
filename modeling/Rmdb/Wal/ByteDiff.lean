import Rmdb.Lib.Runs
import Rmdb.Recovery.Value
import Rmdb.Wal.Decode

/-!
# The byte difference of two records

`wal_byte_diff` (src/recovery/log_manager.h) finds the maximal runs of differing bytes and joins
those with fewer than 8 equal bytes between them (`diffFrom_eq`).  What an `UPDATE_DELTA` record
needs of it follows from the runs: the ranges lie apart and in order, and outside them the
records agree, so that either record becomes the other when the bytes of the ranges are
replaced (`patch_ranges`).
-/

namespace Rmdb.Wal

open Rmdb.Txn (Bytes getBytes getBytes_length putBytes putBytes_length putBytes_getElem?)
open Rmdb.Lib (mergeInto mergeInto_near mergeInto_far mergeRuns runs single Spread MaxRun mergeRuns_runs runs_spread runs_cover
  runs_stop runs_eq_nil_iff mem_runs_one)
open Rmdb.Recovery (Range RangeOk InRanges patchOld patchNew patchOld_getElem?)

structure WalDiffRange where
  off : BitVec 16
  len : BitVec 16
deriving DecidableEq, Repr

/-- The casts to `uint16_t`. -/
def toDiffRange (d : Nat × Nat) : WalDiffRange := ⟨BitVec.ofNat 16 d.1, BitVec.ofNat 16 d.2⟩

/-- `out` with as many ranges as `wal_byte_diff` returns; -1 is `none`. -/
def walDiffRanges (a b : Bytes) (n : Nat) : Option (List WalDiffRange) :=
  (walByteDiff a b n).map fun ds => ds.map toDiffRange

/-! ## Termination -/

/-- The inner loop with `fuel` turns; `none` when it needs more. -/
def extendDiffIn (a b : Bytes) (n : Nat) : Nat → Nat → Option Nat
  | 0, _ => none
  | fuel + 1, stop =>
      if n ≤ stop then some stop
      else if a.getD stop 0 != b.getD stop 0 then extendDiffIn a b n fuel (stop + 1)
      else
        match firstDiff a b stop (min (stop + 8) n) with
        | none => some stop
        | some look => extendDiffIn a b n fuel (look + 1)

/-- The outer loop with `fuel` turns, each with `fuelIn` turns of the inner one. -/
def diffIn (a b : Bytes) (n fuelIn : Nat) : Nat → Nat → Nat → Option (Option (List (Nat × Nat)))
  | 0, _, _ => none
  | fuel + 1, i, nr =>
      match firstDiff a b i n with
      | none => some (some [])
      | some start =>
          (extendDiffIn a b n fuelIn (start + 1)).bind fun stop =>
            if 8 ≤ nr then some none
            else
              (diffIn a b n fuelIn fuel stop (nr + 1)).map fun out =>
                out.map fun rest => (start, stop - start) :: rest

/-- `wal_byte_diff` with at most `fuel` turns of each loop; `none` when it needs more. -/
def walDiffRangesIn (a b : Bytes) (n fuel : Nat) : Option (Option (List WalDiffRange)) :=
  (diffIn a b n fuel fuel 0 0).map fun out => out.map fun ds => ds.map toDiffRange

theorem extendDiffIn_eq (a b : Bytes) (n : Nat) : ∀ fuel fuel' stop, n - stop < fuel → n - stop ≤ fuel' →
    extendDiffIn a b n fuel stop = some (extendDiff a b n fuel' stop) := by
  intro fuel
  induction fuel with
  | zero => intro fuel' stop h _; omega
  | succ fuel ih =>
      intro fuel' stop h h'
      cases fuel' with
      | zero =>
          rw [extendDiffIn, if_pos (by omega)]
          rfl
      | succ fuel' =>
          rw [extendDiffIn, extendDiff]
          by_cases hend : n ≤ stop
          · rw [if_pos hend, if_pos hend]
          · rw [if_neg hend, if_neg hend]
            by_cases hne : a.getD stop 0 != b.getD stop 0
            · rw [if_pos hne, if_pos hne]
              exact ih fuel' (stop + 1) (by omega) (by omega)
            · rw [if_neg hne, if_neg hne]
              cases hlook : firstDiff a b stop (min (stop + 8) n) with
              | none => rfl
              | some look =>
                  have hlt := firstDiff_lt hlook
                  exact ih fuel' (look + 1) (by omega) (by omega)

theorem diffIn_eq (a b : Bytes) (n fuelIn : Nat) (hin : n ≤ fuelIn) : ∀ fuel fuel' i nr, n - i < fuel →
    n - i < fuel' → diffIn a b n fuelIn fuel i nr = some (diffFrom a b n fuel' i nr) := by
  intro fuel
  induction fuel with
  | zero => intro fuel' i nr h _; omega
  | succ fuel ih =>
      intro fuel' i nr h h'
      obtain ⟨fuel', rfl⟩ : ∃ k, fuel' = k + 1 := ⟨fuel' - 1, by omega⟩
      rw [diffIn, diffFrom]
      cases hfirst : firstDiff a b i n with
      | none => rfl
      | some start =>
          have hlt := firstDiff_lt hfirst
          have hstop := extendDiff_le a b n n (start + 1) (by omega)
          simp only [extendDiffIn_eq a b n fuelIn n (start + 1) (by omega) (by omega), Option.bind_some]
          by_cases hmany : 8 ≤ nr
          · rw [if_pos hmany, if_pos hmany]
          · rw [if_neg hmany, if_neg hmany, ih fuel' _ (nr + 1) (by omega) (by omega)]
            rfl

/-- Every call is over after at most as many turns of each loop as there are bytes, and one. -/
theorem walDiffRangesIn_eq (a b : Bytes) {n fuel : Nat} (h : n < fuel) :
    walDiffRangesIn a b n fuel = some (walDiffRanges a b n) := by
  unfold walDiffRangesIn walDiffRanges walByteDiff
  rw [diffIn_eq a b n fuel h.le fuel (n + 1) 0 0 (by omega) (by omega)]
  rfl

/-! ## The runs that are found -/

/-- The positions from `lo` on at which the bytes differ. -/
def diffsFrom (a b : Bytes) (n lo : Nat) : List Nat :=
  (List.range' lo (n - lo)).filter fun i => a.getD i 0 != b.getD i 0

/-- The positions at which the bytes differ. -/
def diffPositions (a b : Bytes) (n : Nat) : List Nat := diffsFrom a b n 0

/-- The maximal runs of differing bytes, as starts and ends. -/
def maximalRuns (a b : Bytes) (n : Nat) : List (Nat × Nat) := runs 1 (diffPositions a b n)

variable {a b : Bytes} {n : Nat}

theorem mem_diffsFrom {lo i : Nat} : i ∈ diffsFrom a b n lo ↔ lo ≤ i ∧ i < n ∧ a.getD i 0 ≠ b.getD i 0 := by
  unfold diffsFrom
  rw [List.mem_filter, List.mem_range'_1, bne_iff_ne, ← and_assoc]
  exact and_congr_left fun _ => by omega

theorem diffsFrom_sorted (a b : Bytes) (n lo : Nat) : (diffsFrom a b n lo).Pairwise (· < ·) :=
  List.Pairwise.filter _ (List.pairwise_lt_range' 1)

theorem diffsFrom_cons {lo : Nat} (hlo : lo < n) (hne : a.getD lo 0 ≠ b.getD lo 0) :
    diffsFrom a b n lo = lo :: diffsFrom a b n (lo + 1) := by
  unfold diffsFrom
  obtain ⟨k, hk⟩ : ∃ k, n - lo = k + 1 := ⟨n - lo - 1, by omega⟩
  rw [hk, List.range'_succ, List.filter_cons_of_pos (by simpa using hne), show n - (lo + 1) = k by omega]

/-- Equal bytes in front. -/
theorem diffsFrom_skip {lo mid : Nat} (hmid : lo ≤ mid) (heq : ∀ i, lo ≤ i → i < mid → a.getD i 0 = b.getD i 0) :
    diffsFrom a b n lo = diffsFrom a b n mid := by
  induction mid, hmid using Nat.le_induction with
  | base => rfl
  | succ mid hle ih =>
      rw [ih fun i hi hi' => heq i hi (by omega)]
      unfold diffsFrom
      rcases Nat.lt_or_ge mid n with hlt | hge
      · obtain ⟨k, hk⟩ : ∃ k, n - mid = k + 1 := ⟨n - mid - 1, by omega⟩
        rw [hk, List.range'_succ, List.filter_cons_of_neg (by simpa using heq mid hle (Nat.lt_succ_self _)),
          show n - (mid + 1) = k by omega]
      · rw [show n - mid = 0 by omega, show n - (mid + 1) = 0 by omega]
        rfl

theorem firstDiff_none {lo hi : Nat} (h : firstDiff a b lo hi = none) :
    ∀ i, lo ≤ i → i < hi → a.getD i 0 = b.getD i 0 := by
  intro i hlo hhi
  have hno := List.find?_eq_none.1 h i (List.mem_range'_1.2 (by omega))
  simpa using hno

theorem firstDiff_some {lo hi i : Nat} (h : firstDiff a b lo hi = some i) :
    a.getD i 0 ≠ b.getD i 0 ∧ ∀ j, lo ≤ j → j < i → a.getD j 0 = b.getD j 0 := by
  obtain ⟨hne, -, hbefore⟩ := List.find?_range'_eq_some.1 h
  exact ⟨by simpa using hne, fun j hj hji => by simpa using hbefore j hj hji⟩

theorem diffsFrom_of_firstDiff {lo hi i : Nat} (hhi : hi ≤ n) (h : firstDiff a b lo hi = some i) :
    diffsFrom a b n lo = i :: diffsFrom a b n (i + 1) := by
  have hlt := firstDiff_lt h
  obtain ⟨hne, hbefore⟩ := firstDiff_some h
  rw [diffsFrom_skip hlt.1 hbefore, diffsFrom_cons (by omega) hne]

/-- The runs of the positions from `lo` on. -/
def runsFrom (a b : Bytes) (n lo : Nat) : List (Nat × Nat) := runs 8 (diffsFrom a b n lo)

/-- The inner loop joins what follows to the range as long as the gaps are short. -/
theorem extendDiff_runs (start : Nat) : ∀ fuel stop, n - stop ≤ fuel → stop ≤ n →
    mergeInto 8 (start, stop) ((diffsFrom a b n stop).map single) =
      (start, extendDiff a b n fuel stop) :: runsFrom a b n (extendDiff a b n fuel stop) := by
  intro fuel
  induction fuel with
  | zero =>
      intro stop h hle
      obtain rfl : stop = n := by omega
      unfold runsFrom diffsFrom
      rw [extendDiff, Nat.sub_self]
      rfl
  | succ fuel ih =>
      intro stop h hle
      rw [extendDiff]
      by_cases hend : n ≤ stop
      · rw [if_pos hend]
        unfold runsFrom diffsFrom
        rw [show n - stop = 0 by omega]
        rfl
      · rw [if_neg hend]
        by_cases hne : a.getD stop 0 != b.getD stop 0
        · have hne' : a.getD stop 0 ≠ b.getD stop 0 := by simpa using hne
          rw [if_pos hne, diffsFrom_cons (by omega) hne', List.map_cons, mergeInto_near (by omega)]
          exact ih (stop + 1) (by omega) (by omega)
        · rw [if_neg hne]
          cases hlook : firstDiff a b stop (min (stop + 8) n) with
          | some look =>
              have hlt := firstDiff_lt hlook
              rw [diffsFrom_of_firstDiff (Nat.min_le_right _ _) hlook, List.map_cons,
                mergeInto_near (by omega)]
              exact ih (look + 1) (by omega) (by omega)
          | none =>
              -- the next difference, if there is one, is 8 bytes away or more
              have hsame := firstDiff_none hlook
              show mergeInto 8 (start, stop) ((diffsFrom a b n stop).map single) =
                (start, stop) :: runs 8 (diffsFrom a b n stop)
              cases hnext : diffsFrom a b n stop with
              | nil => rfl
              | cons p ps =>
                  have hp : p ∈ diffsFrom a b n stop := by rw [hnext]; exact List.mem_cons_self
                  obtain ⟨hlo, hpn, hpne⟩ := mem_diffsFrom.1 hp
                  have hfar : stop + 8 ≤ p := not_lt.1 fun hc => hpne (hsame p hlo (by omega))
                  exact mergeInto_far hfar _

/-- As start and length. -/
def sized (r : Nat × Nat) : Nat × Nat := (r.1, r.2 - r.1)

theorem diffFrom_eq (a b : Bytes) (n : Nat) : ∀ fuel i nr, n - i < fuel → nr ≤ 8 →
    diffFrom a b n fuel i nr =
      if nr + (runsFrom a b n i).length ≤ 8 then some ((runsFrom a b n i).map sized) else none := by
  intro fuel
  induction fuel with
  | zero => intro i nr h _; omega
  | succ fuel ih =>
      intro i nr h hnr
      rw [diffFrom]
      cases hfirst : firstDiff a b i n with
      | none =>
          have hsame := firstDiff_none hfirst
          have hnil : diffsFrom a b n i = [] := by
            rw [List.eq_nil_iff_forall_not_mem]
            intro p hp
            obtain ⟨hlo, hpn, hpne⟩ := mem_diffsFrom.1 hp
            exact hpne (hsame p hlo hpn)
          unfold runsFrom
          rw [hnil]
          exact (if_pos hnr).symm
      | some start =>
          have hlt := firstDiff_lt hfirst
          have hstop := extendDiff_le a b n n (start + 1) (by omega)
          have hruns : runsFrom a b n i = (start, extendDiff a b n n (start + 1)) ::
              runsFrom a b n (extendDiff a b n n (start + 1)) := by
            unfold runsFrom
            rw [diffsFrom_of_firstDiff le_rfl hfirst]
            exact extendDiff_runs start n (start + 1) (by omega) (by omega)
          rw [hruns, List.length_cons, List.map_cons]
          simp only
          by_cases hmany : 8 ≤ nr
          · rw [if_pos hmany, if_neg (by omega)]
          · rw [if_neg hmany, ih _ (nr + 1) (by omega) (by omega)]
            by_cases hfit : nr + 1 + (runsFrom a b n (extendDiff a b n n (start + 1))).length ≤ 8
            · rw [if_pos hfit, if_pos (by omega)]
              rfl
            · rw [if_neg hfit, if_neg (by omega)]
              rfl

theorem mergeRuns_maximalRuns (a b : Bytes) (n : Nat) : mergeRuns 8 (maximalRuns a b n) = runsFrom a b n 0 :=
  mergeRuns_runs (by omega) _

/-- The ranges are the maximal runs of differing bytes, merged across gaps of fewer than 8 bytes. -/
theorem walByteDiff_eq (a b : Bytes) (n : Nat) :
    walByteDiff a b n =
      if (mergeRuns 8 (maximalRuns a b n)).length ≤ 8 then some ((mergeRuns 8 (maximalRuns a b n)).map sized)
      else none := by
  unfold walByteDiff
  rw [diffFrom_eq a b n (n + 1) 0 0 (by omega) (by omega), mergeRuns_maximalRuns, Nat.zero_add]

/-! ## Redo and undo -/

/-- The old and the new bytes of a range, as a log record keeps them. -/
def WalDiffRange.cut (a b : Bytes) (r : WalDiffRange) : Range :=
  (r.off.toNat, getBytes a r.off.toNat r.len.toNat, getBytes b r.off.toNat r.len.toNat)

theorem patchNew_eq (c : Bytes) (ranges : List Range) :
    patchNew c ranges = patchOld c (ranges.map fun rg => (rg.1, rg.2.2, rg.2.1)) := by
  unfold patchNew patchOld
  rw [List.foldl_map]

/-- Old bytes put back into a record that differs in their ranges only. -/
theorem patchOld_eq {old new : Bytes} {ranges : List Range} (hok : ∀ rg ∈ ranges, RangeOk old rg)
    (hlen : new.length = old.length) (hout : ∀ i, ¬ InRanges ranges i → new[i]? = old[i]?) :
    patchOld new ranges = old := by
  apply List.ext_getElem?
  intro i
  obtain ⟨hin, hnot, -, -⟩ := patchOld_getElem? (i := i) ranges new hok hlen
  by_cases hi : InRanges ranges i
  · exact hin hi
  · rw [hnot hi, hout i hi]

/-- Ranges inside the records that leave out no difference. -/
structure Covers (a b : Bytes) (n : Nat) (rs : List WalDiffRange) : Prop where
  inside : ∀ r ∈ rs, r.off.toNat + r.len.toNat ≤ n
  all : ∀ i < n, a.getD i 0 ≠ b.getD i 0 → ∃ r ∈ rs, r.off.toNat ≤ i ∧ i < r.off.toNat + r.len.toNat

theorem Covers.symm {rs : List WalDiffRange} (h : Covers a b n rs) : Covers b a n rs :=
  ⟨h.inside, fun i hi hne => h.all i hi hne.symm⟩

theorem Covers.patchOld {rs : List WalDiffRange} (h : Covers a b n rs) (ha : a.length = n) (hb : b.length = n) :
    patchOld b (rs.map (WalDiffRange.cut a b)) = a := by
  have hlen : ∀ {c : Bytes}, c.length = n → ∀ r ∈ rs, (getBytes c r.off.toNat r.len.toNat).length = r.len.toNat := by
    intro c hc r hr
    exact getBytes_length (by rw [hc]; exact h.inside r hr)
  apply patchOld_eq
  · intro rg hrg
    obtain ⟨r, hr, rfl⟩ := List.mem_map.1 hrg
    refine ⟨?_, ?_, ?_⟩
    · exact (hlen hb r hr).trans (hlen ha r hr).symm
    · show r.off.toNat + (getBytes a r.off.toNat r.len.toNat).length ≤ a.length
      rw [hlen ha r hr, ha]
      exact h.inside r hr
    · show getBytes a r.off.toNat (getBytes a r.off.toNat r.len.toNat).length = _
      rw [hlen ha r hr]
      rfl
  · rw [hb, ha]
  · intro i hi
    rcases Nat.lt_or_ge i n with hlt | hge
    · have heq : a.getD i 0 = b.getD i 0 := by
        by_contra hne
        obtain ⟨r, hr, hin⟩ := h.all i hlt hne
        refine hi ⟨_, List.mem_map_of_mem hr, hin.1, ?_⟩
        show i < r.off.toNat + (getBytes a r.off.toNat r.len.toNat).length
        rw [hlen ha r hr]
        exact hin.2
      rw [List.getD_eq_getElem _ _ (by omega), List.getD_eq_getElem _ _ (by omega)] at heq
      rw [List.getElem?_eq_getElem (by omega), List.getElem?_eq_getElem (by omega), heq]
    · rw [List.getElem?_eq_none (by omega), List.getElem?_eq_none (by omega)]

theorem Covers.patchNew {rs : List WalDiffRange} (h : Covers a b n rs) (ha : a.length = n) (hb : b.length = n) :
    patchNew a (rs.map (WalDiffRange.cut a b)) = b := by
  have hswap := h.symm.patchOld hb ha
  rw [patchNew_eq, List.map_map]
  exact hswap

/-- No cast of a range changes it. -/
theorem toDiffRange_sized {r : Nat × Nat} (hr : r.1 < r.2) (hn : r.2 < 65536) :
    (toDiffRange (sized r)).off.toNat = r.1 ∧ (toDiffRange (sized r)).len.toNat = r.2 - r.1 := by
  unfold toDiffRange sized
  rw [BitVec.toNat_ofNat, BitVec.toNat_ofNat]
  exact ⟨Nat.mod_eq_of_lt (by omega), Nat.mod_eq_of_lt (by omega)⟩

theorem runsFrom_spread : Spread 8 (runsFrom a b n 0) := runs_spread (diffsFrom_sorted a b n 0)

theorem runsFrom_le {r : Nat × Nat} (hr : r ∈ runsFrom a b n 0) : r.2 ≤ n := by
  obtain ⟨p, hp, hstop⟩ := runs_stop hr
  have := (mem_diffsFrom.1 hp).2.1
  omega

/-- The casts of the ranges that are found. -/
theorem runsFrom_cast (hn : n < 65536) {r : Nat × Nat} (hr : r ∈ runsFrom a b n 0) :
    (toDiffRange (sized r)).off.toNat = r.1 ∧ (toDiffRange (sized r)).len.toNat = r.2 - r.1 := by
  exact toDiffRange_sized (runsFrom_spread.1 r hr) ((runsFrom_le hr).trans_lt hn)

theorem walDiffRanges_some {rs : List WalDiffRange} (h : walDiffRanges a b n = some rs) :
    (runsFrom a b n 0).length ≤ 8 ∧ rs = (runsFrom a b n 0).map fun r => toDiffRange (sized r) := by
  unfold walDiffRanges at h
  rw [walByteDiff_eq, mergeRuns_maximalRuns] at h
  by_cases hfew : (runsFrom a b n 0).length ≤ 8
  · rw [if_pos hfew] at h
    refine ⟨hfew, ?_⟩
    rw [← Option.some.inj h]
    exact List.map_map ..
  · rw [if_neg hfew] at h
    cases h

theorem runsFrom_covers (hn : n < 65536) :
    Covers a b n ((runsFrom a b n 0).map fun r => toDiffRange (sized r)) := by
  constructor
  · intro r' hr'
    obtain ⟨r, hr, rfl⟩ := List.mem_map.1 hr'
    obtain ⟨hoff, hlen⟩ := runsFrom_cast hn hr
    have := runsFrom_spread.1 r hr
    have := runsFrom_le hr
    omega
  · intro i hi hne
    have hcover : ∃ r ∈ runsFrom a b n 0, r.1 ≤ i ∧ i < r.2 :=
      runs_cover (diffsFrom_sorted a b n 0) (mem_diffsFrom.2 ⟨Nat.zero_le i, hi, hne⟩)
    obtain ⟨r, hr, hin⟩ := hcover
    obtain ⟨hoff, hlen⟩ := runsFrom_cast hn hr
    refine ⟨_, List.mem_map_of_mem hr, ?_, ?_⟩
    · rw [hoff]
      exact hin.1
    · rw [hoff, hlen]
      omega

theorem runsFrom_eq_nil_iff (ha : a.length = n) (hb : b.length = n) : runsFrom a b n 0 = [] ↔ a = b := by
  unfold runsFrom
  rw [runs_eq_nil_iff, List.eq_nil_iff_forall_not_mem]
  constructor
  · intro h
    apply List.ext_getElem (ha.trans hb.symm)
    intro i hia hib
    by_contra hne
    refine h i (mem_diffsFrom.2 ⟨Nat.zero_le i, by omega, ?_⟩)
    rwa [List.getD_eq_getElem _ _ hia, List.getD_eq_getElem _ _ hib]
  · rintro rfl i hi
    exact (mem_diffsFrom.1 hi).2.2 rfl

/-- The maximal runs are the stretches in which all bytes differ, next to equal bytes or the end. -/
theorem mem_maximalRuns (r : Nat × Nat) :
    r ∈ maximalRuns a b n ↔ MaxRun (fun i => i < n ∧ a.getD i 0 ≠ b.getD i 0) r := by
  have hiff : ∀ i, i ∈ diffPositions a b n ↔ i < n ∧ a.getD i 0 ≠ b.getD i 0 := fun i =>
    mem_diffsFrom.trans ⟨fun h => h.2, fun h => ⟨Nat.zero_le i, h⟩⟩
  have hone : r ∈ maximalRuns a b n ↔ MaxRun (· ∈ diffPositions a b n) r :=
    mem_runs_one (diffsFrom_sorted a b n 0) r
  exact hone.trans ⟨fun h => h.congr hiff, fun h => h.congr fun i => (hiff i).symm⟩

/-- `wal_byte_diff` on two records of `n` bytes.  It ends; what it returns are at most 8 ranges,
not empty, in order, apart and inside the records; they turn each record into the other, and
there are none when the records are equal.  -1 means that the maximal runs of differing
bytes are more than 8 when those less than 8 bytes apart are merged. -/
theorem walDiffRanges_exact (hn : n < 65536) (ha : a.length = n) (hb : b.length = n) :
    (∀ fuel, n < fuel → walDiffRangesIn a b n fuel = some (walDiffRanges a b n)) ∧
    (∀ rs, walDiffRanges a b n = some rs →
      rs.length ≤ 8 ∧ (∀ r ∈ rs, 0 < r.len.toNat ∧ r.off.toNat + r.len.toNat ≤ n) ∧
      rs.Pairwise (fun r r' => r.off.toNat + r.len.toNat < r'.off.toNat) ∧
      patchNew a (rs.map (WalDiffRange.cut a b)) = b ∧ patchOld b (rs.map (WalDiffRange.cut a b)) = a ∧
      (rs = [] ↔ a = b)) ∧
    (walDiffRanges a b n = none ↔ 8 < (mergeRuns 8 (maximalRuns a b n)).length) := by
  refine ⟨fun fuel h => walDiffRangesIn_eq a b h, ?_, ?_⟩
  · intro rs hrs
    obtain ⟨hfew, rfl⟩ := walDiffRanges_some hrs
    have hcover : Covers a b n _ := runsFrom_covers hn
    refine ⟨by rwa [List.length_map], ?_, ?_, hcover.patchNew ha hb, hcover.patchOld ha hb, ?_⟩
    · intro r' hr'
      refine ⟨?_, hcover.inside r' hr'⟩
      obtain ⟨r, hr, rfl⟩ := List.mem_map.1 hr'
      have := runsFrom_spread.1 r hr
      rw [(runsFrom_cast hn hr).2]
      omega
    · rw [List.pairwise_map]
      refine runsFrom_spread.2.imp_of_mem ?_
      intro r r' hr hr' hfar
      obtain ⟨hoff, hlen⟩ := runsFrom_cast hn hr
      have hoff' := (runsFrom_cast hn hr').1
      have := runsFrom_spread.1 r hr
      omega
    · rw [List.map_eq_nil_iff]
      exact runsFrom_eq_nil_iff ha hb
  · unfold walDiffRanges
    rw [Option.map_eq_none_iff, walByteDiff_eq]
    split
    · next h => exact ⟨fun hc => (by cases hc), fun hc => absurd h (not_le.2 hc)⟩
    · next h => exact ⟨fun _ => not_le.1 h, fun _ => rfl⟩

/-- A gap of 8 equal bytes is not taken in. -/
theorem walDiffRanges_exact_gap :
    walDiffRanges [0, 0, 0, 0, 0, 0, 0, 0, 0, 0] [1, 0, 0, 0, 0, 0, 0, 0, 0, 1] 10 = some [⟨0, 1⟩, ⟨9, 1⟩] ∧
      patchNew [0, 0, 0, 0, 0, 0, 0, 0, 0, 0] [(0, [0], [1]), (9, [0], [1])] = [1, 0, 0, 0, 0, 0, 0, 0, 0, 1] := by
  have hrs : walDiffRanges [0, 0, 0, 0, 0, 0, 0, 0, 0, 0] [1, 0, 0, 0, 0, 0, 0, 0, 0, 1] 10 =
      some [⟨0, 1⟩, ⟨9, 1⟩] := by
    decide +kernel
  have hexact := walDiffRanges_exact (a := [0, 0, 0, 0, 0, 0, 0, 0, 0, 0]) (b := [1, 0, 0, 0, 0, 0, 0, 0, 0, 1])
    (n := 10) (by decide) rfl rfl
  exact ⟨hrs, (hexact.2.1 _ hrs).2.2.2.1⟩

end Rmdb.Wal
