import Rmdb.Sql.GroupBy

/-!
# SUM

The sum of an INT column is kept in 64 bits, but the row and the comparison of `HAVING` both
take its lower 32: they are the sum of the group exactly when it is a 32-bit number
(`sum_right_iff`).
-/

namespace Rmdb.Sql

open Rmdb.Txn
open Rmdb.Query (TabCol Cols findCol)

/-- The sum of a column over records. -/
def sumOf (cols : Cols) (c : TabCol) (rows : List Bytes) : Int := ((columnValues cols c rows).map Datum.toInt).sum

/-- The records of the group under a key. -/
def AggExecutor.groupRecords (e : AggExecutor) (rows : List Bytes) (key : Bytes) : List Bytes :=
  rows.filter fun r => e.makeGroupKey r = key

/-- The `i`th aggregate, a sum over the column `c`, is the sum of each group: in the rows of the
groups that pass `HAVING`, and as the value `HAVING` compares. -/
structure SumRight (e : AggExecutor) (c : TabCol) (i : Nat) (rows : List Bytes) : Prop where
  shown : ∀ key ∈ (e.groupsOf rows).order, e.groupOk (e.groupsOf rows) key = true →
    (rowData e.cols (e.groupRow (e.groupsOf rows) key))[e.groupCols.length + i]? =
      some (.int (sumOf e.prevCols c (e.groupRecords rows key)))
  compared : ∀ key ∈ (e.groupsOf rows).order,
    (e.sourceValue (((e.groupsOf rows).get key).getD []) key (.agg i)).datum =
      .int (sumOf e.prevCols c (e.groupRecords rows key))

section Sum

variable {tabs : TabName → TabMeta} {e : AggExecutor} {rows : List Bytes} {a : AggregateInfo}

theorem intSum_stateOf {prevCols : Cols} (ht : a.type = .sum) {c : ColMeta} (hc : findCol prevCols a.col = some c)
    (htype : c.type = .int) {cls : List Bytes} (hrows : ∀ r ∈ cls, RecordOk prevCols r) :
    (stateOf prevCols a cls).intSum = BitVec.ofInt 64 (sumOf prevCols a.col cls) := by
  unfold sumOf
  rw [columnValues_some hc]
  induction cls using List.reverseRecOn with
  | nil => rfl
  | append_singleton cls d ih =>
      have ih := ih fun r hr => hrows r (List.mem_append_left _ hr)
      have h4 := ((hrows d (by simp)).field hc).word (by rw [htype]; decide)
      have hadd : ((stateOf prevCols a cls).add prevCols a d).intSum =
          (stateOf prevCols a cls).intSum + (getWord d c.offset).signExtend 64 := by
        rw [add_value (by rw [ht]; decide) hc, AggState.addValue, htype]
        rfl
      rw [stateOf_concat, hadd, ih, List.map_append, List.map_append, List.sum_append, BitVec.ofInt_add,
        List.map_singleton, List.map_singleton, List.sum_singleton, colDatum_int htype (by omega)]
      rfl

theorem castInt_ofInt (t : Int) : (castInt (BitVec.ofInt 64 t)).toInt = t.bmod (2 ^ 32) := by
  unfold castInt
  rw [BitVec.toInt_setWidth, BitVec.toNat_ofInt, Int.bmod_def, Int.bmod_def]
  have hmod : ((t % ((2 ^ 64 : Nat) : Int)).toNat : Int) = t % 2 ^ 64 := by
    rw [Int.toNat_of_nonneg (Int.emod_nonneg _ (by decide))]
    rfl
  rw [hmod, Int.emod_emod_of_dvd _ (by decide)]

/-- The value `HAVING` compares: the sum in 32 bits. -/
theorem sum_datum (hok : AggregateOk tabs e.prevCols a) (ht : a.type = .sum) (harg : a.argType = .int)
    {cls : List Bytes} (hrows : ∀ r ∈ cls, RecordOk e.prevCols r) :
    ∃ w, getAggValue a (stateOf e.prevCols a cls) = .int w ∧
      w.toInt = (sumOf e.prevCols a.col cls).bmod (2 ^ 32) := by
  have hcount : a.type ≠ .count := by rw [ht]; decide
  obtain ⟨c, m, hc, -, -, -, hct⟩ := hok.column_of_ne hcount
  have htype : c.type = .int := hct.symm.trans harg
  refine ⟨castInt (stateOf e.prevCols a cls).intSum, ?_, ?_⟩
  · unfold getAggValue
    rw [ht]
    exact if_pos harg
  · rw [intSum_stateOf ht hc htype hrows, castInt_ofInt]

theorem slots_getElem? {aggs : List AggregateInfo} {as : List ColMeta}
    (has : List.Forall₂ (fun a m => aggColumn tabs a = some m) aggs as) (st : AggregateInfo → AggState) (i : Nat)
    (ha : aggs[i]? = some a) : ∃ m, aggColumn tabs a = some m ∧
      (List.zipWith (fun m f => fieldDatum m.type f) as (slots as aggs (aggs.map st)))[i]? =
        some (fieldDatum m.type (slotOf m a (st a))) := by
  induction has generalizing i with
  | nil => cases ha
  | @cons b m aggs as hb _ ih =>
      cases i with
      | zero =>
          cases ha
          exact ⟨m, hb, rfl⟩
      | succ i => exact ih i ha

/-- A sum shown in a row: the sum in 32 bits. -/
theorem sum_shown (hok : AggOk tabs e) (hsums : ∀ b ∈ e.aggExprs, b.type = .sum → b.argType ≠ .string)
    (hrows : ∀ r ∈ rows, RecordOk e.prevCols r) {i : Nat} (ha : e.aggExprs[i]? = some a) (ht : a.type = .sum)
    (harg : a.argType = .int) {p : Bytes × List Bytes} (hp : p ∈ e.keyed rows) :
    (rowData e.cols (e.buildRow (e.aggExprs.map fun b => stateOf e.prevCols b p.2) p.1))[e.groupCols.length + i]? =
      some (.int ((sumOf e.prevCols a.col p.2).bmod (2 ^ 32))) := by
  obtain ⟨gcs, gs, as, hlayout⟩ := hok.layout
  obtain ⟨fields, hf, hkey, -⟩ := fields_of_keyed hlayout hrows hp
  have hslots := slotsOk hlayout.agg hok.agg hsums
  have hlen : (e.aggExprs.map fun b => stateOf e.prevCols b p.2).length = e.aggExprs.length :=
    List.length_map _
  have hmem := List.mem_of_getElem? ha
  obtain ⟨w, hw, htotal⟩ := sum_datum (hok.agg a hmem) ht harg fun r hr => hrows r (mem_of_keyed hp r hr)
  obtain ⟨m, hm, hget⟩ := slots_getElem? hlayout.agg (fun b => stateOf e.prevCols b p.2) i ha
  have hleft : (List.zipWith (fun m f => fieldDatum m.type f) gs fields).length = e.groupCols.length := by
    rw [List.length_zipWith, hf.length_eq, min_self, ← hf.length_eq, hlayout.length]
  have hslot := aggColumn_slot (hok.agg a hmem) (hsums a hmem) hm
  have hn : ¬ ((a.type = .max ∨ a.type = .min) ∧ (stateOf e.prevCols a p.2).hasValue = false) := by simp [ht]
  rw [hkey, rowData_buildRow hlayout hslots hf hlen, List.getElem?_append_right (by rw [hleft]; omega), hleft,
    Nat.add_sub_cancel_left, hget]
  unfold slotOf
  rw [if_neg hn, fieldDatum_slot (getAggValue_type hslot hn) (by rw [hw]; rintro s ⟨⟩), hw]
  exact congrArg (fun t => some (Datum.int t)) htotal

theorem bmod_eq_self_iff (t : Int) : t.bmod (2 ^ 32) = t ↔ -2 ^ 31 ≤ t ∧ t < 2 ^ 31 := by
  rw [Int.bmod_def]
  split
  · omega
  · omega

theorem groupRecords_keyed {p : Bytes × List Bytes} (hp : p ∈ e.keyed rows) :
    e.groupRecords rows p.1 = p.2 := by
  unfold AggExecutor.keyed at hp
  cases hplain : e.plainAgg with
  | true =>
      rw [if_pos hplain, List.mem_singleton] at hp
      subst hp
      exact List.filter_eq_self.2 fun r _ => decide_eq_true (makeGroupKey_plain hplain r)
  | false =>
      rw [if_neg (by simp [hplain])] at hp
      obtain ⟨k, -, rfl⟩ := List.mem_map.1 hp
      rfl

/-- `SUM` over an INT column is right exactly when the sum of each group is a 32-bit number. -/
theorem sum_right_iff (hok : AggOk tabs e) (hsums : ∀ b ∈ e.aggExprs, b.type = .sum → b.argType ≠ .string)
    (hrows : ∀ r ∈ rows, RecordOk e.prevCols r) {i : Nat} (ha : e.aggExprs[i]? = some a) (ht : a.type = .sum)
    (harg : a.argType = .int) :
    SumRight e a.col i rows ↔ ∀ key ∈ (e.groupsOf rows).order,
      -2 ^ 31 ≤ sumOf e.prevCols a.col (e.groupRecords rows key) ∧
        sumOf e.prevCols a.col (e.groupRecords rows key) < 2 ^ 31 := by
  obtain ⟨horder, hget⟩ := groupsOf_spec (e := e) rows
  have hmem := List.mem_of_getElem? ha
  have hcompared : ∀ p ∈ e.keyed rows,
      (e.sourceValue (((e.groupsOf rows).get p.1).getD []) p.1 (.agg i)).datum =
        .int ((sumOf e.prevCols a.col p.2).bmod (2 ^ 32)) := by
    intro p hp
    obtain ⟨w, hw, htotal⟩ := sum_datum (hok.agg a hmem) ht harg fun r hr => hrows r (mem_of_keyed hp r hr)
    rw [hget p hp, Option.getD_some]
    simp only [AggExecutor.sourceValue, List.getElem?_map, ha, Option.map_some, hw]
    exact congrArg Datum.int htotal
  have hshown : ∀ p ∈ e.keyed rows,
      (rowData e.cols (e.groupRow (e.groupsOf rows) p.1))[e.groupCols.length + i]? =
        some (.int ((sumOf e.prevCols a.col p.2).bmod (2 ^ 32))) := by
    intro p hp
    unfold AggExecutor.groupRow
    rw [hget p hp, Option.getD_some]
    exact sum_shown hok hsums hrows ha ht harg hp
  constructor
  · rintro ⟨-, h⟩ key hkey
    have hright := h key hkey
    rw [horder] at hkey
    obtain ⟨p, hp, rfl⟩ := List.mem_map.1 hkey
    rw [groupRecords_keyed hp] at hright ⊢
    rw [hcompared p hp] at hright
    exact (bmod_eq_self_iff _).1 (Datum.int.inj hright)
  · intro h
    constructor
    · intro key hkey _
      have hfit := h key hkey
      rw [horder] at hkey
      obtain ⟨p, hp, rfl⟩ := List.mem_map.1 hkey
      rw [groupRecords_keyed hp] at hfit ⊢
      rw [hshown p hp, (bmod_eq_self_iff _).2 hfit]
    · intro key hkey
      have hfit := h key hkey
      rw [horder] at hkey
      obtain ⟨p, hp, rfl⟩ := List.mem_map.1 hkey
      rw [groupRecords_keyed hp] at hfit ⊢
      rw [hcompared p hp, (bmod_eq_self_iff _).2 hfit]

end Sum

/-! ## Two large numbers -/

def sumB : AggregateInfo := { type := .sum, col := ⟨"t", "b"⟩ }

/-- `SELECT a, SUM(b) FROM t GROUP BY a`. -/
def sums : AggExecutor where
  prevCols := Query.tabCols abTab "t"
  groupCols := [⟨"t", "a"⟩]
  aggExprs := [sumB]
  havingConds := []
  cols := [⟨"a", .int, 4, 0⟩, ⟨"sum(b)", .int, 4, 4⟩]

theorem sums_ok : AggOk (fun _ => abTab) sums := by
  refine ⟨by decide, oneCount_ok.group, ?_⟩
  intro a ha
  have hfind : findCol (Query.tabCols abTab "t") ⟨"t", "b"⟩ = some ⟨"b", .int, 4, 4⟩ := by decide
  have hget : getCol (fun _ => abTab) ⟨"t", "b"⟩ = some ⟨"b", .int, 4, 4⟩ := by decide
  rw [List.mem_singleton.1 ha]
  exact ⟨by rintro ⟨⟩, fun _ => ⟨_, _, hfind, hget, rfl, rfl, fun _ => rfl⟩⟩

theorem sum_right_iff_sameTwice : SumRight sums ⟨"t", "b"⟩ 0 sameTwice := by
  refine (sum_right_iff (a := sumB) sums_ok ?_ sameTwice_ok rfl rfl rfl).2 (by decide)
  intro b hb
  rw [List.mem_singleton.1 hb]
  rintro - ⟨⟩

/-- Two records with `a = 1` and `b = 2³⁰`. -/
def largeTwice : List Bytes := List.replicate 2 [1, 0, 0, 0, 0, 0, 0, 64]

theorem largeTwice_ok : ∀ r ∈ largeTwice, RecordOk (Query.tabCols abTab "t") r := by
  intro r hr
  rw [(List.mem_replicate.1 hr).2]
  intro e he
  rcases List.mem_cons.1 he with rfl | he
  · exact ⟨rfl, fun _ => rfl, by rintro ⟨⟩⟩
  · rw [List.mem_singleton.1 he]
    exact ⟨rfl, fun _ => rfl, by rintro ⟨⟩⟩

/-- The row shows -2³¹ for a sum of 2³¹. -/
theorem not_sumRight_largeTwice : AggOk (fun _ => abTab) sums ∧
    (∀ r ∈ largeTwice, RecordOk sums.prevCols r) ∧ sums.aggExprs[0]? = some sumB ∧
    (sums.output largeTwice).map (List.map (rowData sums.cols)) = some [[.int 1, .int (-2 ^ 31)]] ∧
    ¬ SumRight sums sumB.col 0 largeTwice := by
  refine ⟨sums_ok, largeTwice_ok, rfl, by decide, ?_⟩
  rintro ⟨-, h⟩
  revert h
  decide

end Rmdb.Sql
