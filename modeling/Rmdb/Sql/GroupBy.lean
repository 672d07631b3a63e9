import Rmdb.Sql.Shown

/-!
# GROUP BY and HAVING

What a grouped query means (`Right`): a row for each class that satisfies `HAVING`, with the
values of the class, in order of first appearance.  A conjunct of `HAVING` is about a group
column or an aggregate (`Target`); the executor only has the text it was written with and
looks it up by name.  The answer is right exactly when the entries that are found give the
same verdicts as what is meant, and no number of a class shown needs more than 32 bits
(`right_iff_verdicts`).  A text that names what its conjunct is about leads to an entry with its
value (`havingSource_group`, `havingSource_agg`), so queries of such texts are answered right
(`groupBy_right`).
-/

namespace Rmdb.Sql

open Rmdb.Txn
open Rmdb.Query (TabCol Cols findCol)

/-! ## What a query means -/

/-- What a conjunct of `HAVING` is about. -/
inductive Target where
  | group (i : Nat)
  | agg (a : AggregateInfo)
deriving DecidableEq, Repr

inductive Operand where
  | lit (v : Value)
  | item (t : Target)
deriving DecidableEq, Repr

/-- A conjunct as it is meant, with the text of its left side and what `rhs_val` holds. -/
structure Conjunct where
  target : Target
  op : CompOp
  rhs : Operand
  lhsCol : TabCol
  rhsVal : Value
deriving DecidableEq, Repr

/-- What the executor is given of a conjunct. -/
def Conjunct.cond (j : Conjunct) : HavingCond := ⟨j.lhsCol, j.op, j.rhsVal⟩

namespace AggExecutor

variable (e : AggExecutor)

/-- The value of a group column or aggregate in a class. -/
def targetValue (p : List Datum × List Bytes) : Target → Option Datum
  | .group i => p.1[i]?
  | .agg a => reference e.prevCols a p.2

def operandValue (p : List Datum × List Bytes) : Operand → Option Datum
  | .lit v => some v.datum
  | .item t => e.targetValue p t

def conjunctHolds (p : List Datum × List Bytes) (j : Conjunct) : Bool :=
  match e.targetValue p j.target, e.operandValue p j.rhs with
  | some a, some b => j.op.holds (a.compare b)
  | _, _ => false

/-- The class satisfies `HAVING`. -/
def passes (js : List Conjunct) (p : List Datum × List Bytes) : Bool := js.all (e.conjunctHolds p)

end AggExecutor

/-- The row of a class; a slot without value is blank. -/
def AggExecutor.classRow (e : AggExecutor) (p : List Datum × List Bytes) : List Datum :=
  p.1 ++ e.aggExprs.map fun a => (reference e.prevCols a p.2).getD (.blank (outType a))

/-- The executor gives the rows the query means. -/
def Right (e : AggExecutor) (js : List Conjunct) (rows : List Bytes) : Prop :=
  ∃ out, e.output rows = some out ∧
    out.map (rowData e.cols) = ((e.classes rows).filter (e.passes js)).map e.classRow

/-! ## When it is right -/

namespace AggExecutor

variable (e : AggExecutor)

/-- The value at the entry a name is looked up to: numbers in 32 bits, 0 for no value. -/
def entryDatum (p : List Datum × List Bytes) : Source → Datum
  | .group i => p.1.getD i (.int 0)
  | .agg i =>
      match e.aggExprs[i]? with
      | some a => ((reference e.prevCols a p.2).getD (.int 0)).low
      | none => .int 0

/-- The conjunct, read at the entry its text is looked up to. -/
def readAt (p : List Datum × List Bytes) (j : Conjunct) : Bool :=
  match e.havingSource j.lhsCol with
  | none => false
  | some s => j.op.holds ((e.entryDatum p s).compare j.rhsVal.datum)

end AggExecutor

/-- In every class the conjuncts give the same verdict at the entries they are looked up to
and at what they mean. -/
def VerdictsAgree (e : AggExecutor) (js : List Conjunct) (rows : List Bytes) : Prop :=
  ∀ p ∈ e.classes rows, js.all (e.readAt p) = e.passes js p

/-- No class that is shown counts up to 2³¹. -/
def CountsFit (e : AggExecutor) (js : List Conjunct) (rows : List Bytes) : Prop :=
  ∀ p ∈ e.classes rows, e.passes js p = true → ∀ a ∈ e.aggExprs, a.type = .count →
    ((reference e.prevCols a p.2).getD (.int 0)).toInt < 2 ^ 31

instance (e : AggExecutor) (js : List Conjunct) (rows : List Bytes) : Decidable (VerdictsAgree e js rows) :=
  inferInstanceAs (Decidable (∀ p ∈ e.classes rows, _))

instance (e : AggExecutor) (js : List Conjunct) (rows : List Bytes) : Decidable (CountsFit e js rows) :=
  inferInstanceAs (Decidable (∀ p ∈ e.classes rows, _))

/-! ## What the executor compares -/

section Shown

variable {tabs : TabName → TabMeta} {e : AggExecutor} {rows : List Bytes}

theorem lt_of_havingSource {c : TabCol} {i : Nat} (h : e.havingSource c = some (.group i)) :
    i < e.groupCols.length := by
  unfold AggExecutor.havingSource at h
  cases hidx : e.groupCols.findIdx? fun g =>
      decide (g.colName = c.colName) && (decide (c.tabName = "") || decide (g.tabName = c.tabName)) with
  | some k =>
      rw [hidx] at h
      cases h
      exact (List.findIdx?_eq_some_iff_getElem.1 hidx).1
  | none =>
      rw [hidx] at h
      obtain ⟨k, -, hk⟩ := Option.map_eq_some_iff.1 h
      cases hk

theorem sourceValue_datum (hok : AggOk tabs e) (hplain : ∀ a ∈ e.aggExprs, Plain a)
    (hrows : ∀ r ∈ rows, RecordOk e.prevCols r) {p : Bytes × List Bytes} (hp : p ∈ e.keyed rows) {c : TabCol}
    {s : Source} (hs : e.havingSource c = some s) :
    (e.sourceValue (e.aggExprs.map fun a => stateOf e.prevCols a p.2) p.1 s).datum =
      e.entryDatum (e.keyData p.1, p.2) s := by
  cases s with
  | group i => exact getGroupColValue_datum hok hrows hp (lt_of_havingSource hs)
  | agg i =>
      simp only [AggExecutor.sourceValue, AggExecutor.entryDatum, List.getElem?_map]
      cases ha : e.aggExprs[i]? with
      | none => rfl
      | some a =>
          have hmem := List.mem_of_getElem? ha
          exact getAggValue_datum (hok.agg a hmem) (hplain a hmem) fun r hr => hrows r (mem_of_keyed hp r hr)

/-- `satisfy_having` of a group, read at its class. -/
theorem satisfyHaving_eq (hok : AggOk tabs e) (hplain : ∀ a ∈ e.aggExprs, Plain a)
    (hrows : ∀ r ∈ rows, RecordOk e.prevCols r) {js : List Conjunct}
    (hconds : e.havingConds = js.map Conjunct.cond) {p : Bytes × List Bytes} (hp : p ∈ e.keyed rows) :
    e.satisfyHaving (e.aggExprs.map fun a => stateOf e.prevCols a p.2) p.1 =
      js.all (e.readAt (e.keyData p.1, p.2)) := by
  unfold AggExecutor.satisfyHaving
  rw [hconds, List.all_map]
  congr 1
  funext j
  unfold AggExecutor.readAt
  show (match e.havingSource j.lhsCol with
    | none => false
    | some s => evaluateCondition (e.sourceValue _ p.1 s) j.rhsVal j.op) = _
  cases hs : e.havingSource j.lhsCol with
  | none => rfl
  | some s =>
      show j.op.holds (compareValueByVal _ _) = _
      rw [compareValueByVal_eq, sourceValue_datum hok hplain hrows hp hs]

/-- The rows of the executor over the classes. -/
theorem output_classes (hok : AggOk tabs e) (hplain : ∀ a ∈ e.aggExprs, Plain a)
    (hrows : ∀ r ∈ rows, RecordOk e.prevCols r) {js : List Conjunct}
    (hconds : e.havingConds = js.map Conjunct.cond) :
    ∃ out, e.output rows = some out ∧ out.map (rowData e.cols) =
      ((e.classes rows).filter fun p => js.all (e.readAt p)).map e.shownRow := by
  refine ⟨_, output_eq rows, ?_⟩
  rw [classes_eq hrows, List.filter_map, List.map_map, List.map_map]
  have hfilter : (e.keyed rows).filter (fun p =>
      e.satisfyHaving (e.aggExprs.map fun a => stateOf e.prevCols a p.2) p.1) =
      (e.keyed rows).filter ((fun p => js.all (e.readAt p)) ∘ fun p => (e.keyData p.1, p.2)) :=
    List.filter_congr fun p hp => satisfyHaving_eq hok hplain hrows hconds hp
  rw [hfilter]
  apply List.map_congr_left
  intro p hp
  exact rowData_group hok hplain hrows (List.mem_of_mem_filter hp)

end Shown

/-! ## The condition -/

section Condition

variable {tabs : TabName → TabMeta} {e : AggExecutor} {rows : List Bytes} {js : List Conjunct}

theorem length_of_classes {p : List Datum × List Bytes} (hp : p ∈ e.classes rows) :
    p.1.length = (e.groupCols.filterMap (findCol e.prevCols)).length := by
  unfold AggExecutor.classes at hp
  cases hplain : e.plainAgg with
  | true =>
      have hnil : e.groupCols = [] := List.isEmpty_iff.1 hplain
      rw [if_pos hplain, List.mem_singleton] at hp
      subst hp
      rw [hnil]
      rfl
  | false =>
      rw [if_neg (by simp [hplain])] at hp
      obtain ⟨k, hk, rfl⟩ := List.mem_map.1 hp
      obtain ⟨r, -, rfl⟩ := List.mem_map.1 (List.mem_eraseDups.1 hk)
      exact List.length_map _

/-- Different filters of a list without repeated keys leave different keys. -/
theorem filter_keys_inj {α β : Type} {f : α → β} {p q : α → Bool} : ∀ {xs : List α}, (xs.map f).Nodup →
    (xs.filter p).map f = (xs.filter q).map f → ∀ x ∈ xs, p x = q x := by
  intro xs hnodup h x hx
  have hiff : ∀ r : α → Bool, r x = true ↔ f x ∈ (xs.filter r).map f := by
    intro r
    constructor
    · intro hr
      exact List.mem_map_of_mem (List.mem_filter.2 ⟨hx, hr⟩)
    · intro hr
      obtain ⟨y, hy, hyx⟩ := List.mem_map.1 hr
      obtain ⟨hy, hry⟩ := List.mem_filter.1 hy
      rwa [← List.inj_on_of_nodup_map hnodup hy hx hyx]
  rw [Bool.eq_iff_iff, hiff p, hiff q, h]

theorem low_nat (n : Nat) : (Datum.int n).low = .int n ↔ (n : Int) < 2 ^ 31 := by
  show Datum.int _ = .int n ↔ _
  rw [Datum.int.injEq, Int.bmod_def]
  split
  · omega
  · omega

theorem reference_count {prevCols : Cols} {a : AggregateInfo} (ht : a.type = .count) (cls : List Bytes) :
    ∃ n : Nat, reference prevCols a cls = some (.int n) := by
  unfold reference
  rw [ht]
  cases a.isStar with
  | true => exact ⟨_, rfl⟩
  | false =>
      cases a.distinct with
      | true => exact ⟨_, rfl⟩
      | false => exact ⟨_, rfl⟩

/-- The value shown for an aggregate is its value, but for a count that does not fit. -/
theorem low_reference_iff {prevCols : Cols} {a : AggregateInfo} (hok : AggregateOk tabs prevCols a)
    (hplain : Plain a) {cls : List Bytes} (hrows : ∀ r ∈ cls, RecordOk prevCols r) :
    ((reference prevCols a cls).getD (.blank (outType a))).low = (reference prevCols a cls).getD (.blank (outType a)) ↔
      (a.type = .count → ((reference prevCols a cls).getD (.int 0)).toInt < 2 ^ 31) := by
  rcases hplain with ht | ⟨ht, hfloat⟩
  · obtain ⟨n, hn⟩ : ∃ n : Nat, reference prevCols a cls = some (.int n) := reference_count ht cls
    rw [hn]
    constructor
    · rintro h -
      exact (low_nat n).1 h
    · intro h
      exact (low_nat n).2 (h ht)
  · obtain ⟨o, ho⟩ := exists_extreme hok ht hfloat hrows
    constructor
    · rintro - hc
      exact absurd hc (ne_count_of_extreme ht)
    · intro _
      rw [ho.reference]
      cases o with
      | none => exact Datum.low_blank _
      | some v => exact datum_low v

/-- What a class shows is its values when its counts fit. -/
theorem shownRow_eq_iff (hok : AggOk tabs e) (hplain : ∀ a ∈ e.aggExprs, Plain a)
    {p : List Datum × List Bytes} (hrows : ∀ r ∈ p.2, RecordOk e.prevCols r) :
    e.shownRow p = e.classRow p ↔ ∀ a ∈ e.aggExprs, a.type = .count →
      ((reference e.prevCols a p.2).getD (.int 0)).toInt < 2 ^ 31 := by
  unfold AggExecutor.shownRow AggExecutor.classRow
  rw [List.append_cancel_left_eq, List.map_inj_left]
  exact forall₂_congr fun a ha => low_reference_iff (hok.agg a ha) (hplain a ha) hrows

theorem rows_of_classes (hrows : ∀ r ∈ rows, RecordOk e.prevCols r) {p : List Datum × List Bytes}
    (hp : p ∈ e.classes rows) : ∀ r ∈ p.2, RecordOk e.prevCols r := by
  rw [classes_eq hrows] at hp
  obtain ⟨q, hq, rfl⟩ := List.mem_map.1 hp
  exact fun r hr => hrows r (mem_of_keyed hq r hr)

/-- The answer is right exactly when the entries give the right verdicts. -/
theorem right_iff_verdicts (hok : AggOk tabs e) (hplain : ∀ a ∈ e.aggExprs, Plain a)
    (hrows : ∀ r ∈ rows, RecordOk e.prevCols r) (hconds : e.havingConds = js.map Conjunct.cond) :
    Right e js rows ↔ VerdictsAgree e js rows ∧ CountsFit e js rows := by
  obtain ⟨out, hout, hdata⟩ := output_classes hok hplain hrows hconds
  constructor
  · rintro ⟨out', hout', hright⟩
    rw [hout] at hout'
    cases hout'
    rw [hdata] at hright
    -- the group columns of the rows tell which classes were shown
    have hkeys : ∀ (f : List Datum × List Bytes → List Datum) (q : List Datum × List Bytes → Bool),
        (∀ p, ∃ more, f p = p.1 ++ more) →
        (((e.classes rows).filter q).map f).map
            (List.take (e.groupCols.filterMap (findCol e.prevCols)).length) =
          ((e.classes rows).filter q).map Prod.fst := by
      intro f q hf
      rw [List.map_map]
      apply List.map_congr_left
      intro p hp
      obtain ⟨more, hmore⟩ := hf p
      rw [Function.comp_apply, hmore, ← length_of_classes (List.mem_of_mem_filter hp), List.take_left]
    have hverdicts : VerdictsAgree e js rows := by
      apply filter_keys_inj (nodup_classes e rows)
      rw [← hkeys e.shownRow _ fun p => ⟨_, rfl⟩, hright, hkeys e.classRow _ fun p => ⟨_, rfl⟩]
    refine ⟨hverdicts, ?_⟩
    rw [List.filter_congr hverdicts, List.map_inj_left] at hright
    intro p hp hpass
    have hshown := hright p (List.mem_filter.2 ⟨hp, hpass⟩)
    exact (shownRow_eq_iff hok hplain (rows_of_classes hrows hp)).1 hshown
  · rintro ⟨hverdicts, hfit⟩
    refine ⟨out, hout, ?_⟩
    rw [hdata, List.filter_congr hverdicts]
    apply List.map_congr_left
    intro p hp
    obtain ⟨hp, hpass⟩ := List.mem_filter.1 hp
    exact (shownRow_eq_iff hok hplain (rows_of_classes hrows hp)).2 (hfit p hp hpass)

end Condition

/-! ## Which item a text names -/

namespace AggExecutor

variable (e : AggExecutor)

/-- The query groups by the column, or has the aggregate in its list. -/
def Listed : Target → Prop
  | .group i => i < e.groupCols.length
  | .agg a => a ∈ e.aggExprs

/-- The text fits the item: name and table of a group column, alias or name of an aggregate. -/
def Spells (c : TabCol) : Target → Prop
  | .group i => ∃ g, e.groupCols[i]? = some g ∧ g.colName = c.colName ∧ (c.tabName = "" ∨ g.tabName = c.tabName)
  | .agg a => (a.aliasName ≠ "" ∧ a.aliasName = c.colName) ∨ a.toString = c.colName

end AggExecutor

/-- The last element of a list that has a property. -/
def LastOf {α : Type} (p : α → Prop) (xs : List α) (x : α) : Prop :=
  ∃ before after, xs = before ++ x :: after ∧ p x ∧ ∀ y ∈ after, ¬ p y

/-- Column `g` has the name of the text, and the table if the text has one. -/
def FitsGroup (c g : TabCol) : Prop := g.colName = c.colName ∧ (c.tabName = "" ∨ g.tabName = c.tabName)

def HasAlias (s : String) (a : AggregateInfo) : Prop := a.aliasName ≠ "" ∧ a.aliasName = s

/-- The same function of the same values, under any alias. -/
structure SameAggregate (a b : AggregateInfo) : Prop where
  type : a.type = b.type
  col : a.col = b.col
  star : a.isStar = b.isStar
  distinct : a.distinct = b.distinct

namespace AggExecutor

variable (e : AggExecutor)

/-- The text names the item: it is the first group column that fits, or no group column fits and it is the
last aggregate with the text as its alias, or without such an alias the last one with the text as its name.
The aggregate may be listed under another alias. -/
def Names (c : TabCol) : Target → Prop
  | .group i => ∃ g, e.groupCols[i]? = some g ∧ FitsGroup c g ∧
      ∀ k < i, ∀ g', e.groupCols[k]? = some g' → ¬ FitsGroup c g'
  | .agg a => (∀ g ∈ e.groupCols, ¬ FitsGroup c g) ∧ ∃ b, SameAggregate a b ∧
      (LastOf (HasAlias c.colName) e.aggExprs b ∨
        (∀ x ∈ e.aggExprs, ¬ HasAlias c.colName x) ∧ LastOf (fun x => x.toString = c.colName) e.aggExprs b)

/-- A conjunct that the executor can read as it is meant, over these records: its text names what it is about,
the other side is a literal, `MIN` and `MAX` are not of nothing, and a count fits 32 bits. -/
structure Readable (rows : List Bytes) (j : Conjunct) : Prop where
  names : e.Names j.lhsCol j.target
  rhs : j.rhs = .lit j.rhsVal
  extreme : rows = [] → e.groupCols = [] → ∀ a, j.target = .agg a → a.type = .count
  count : ∀ a, j.target = .agg a → a.type = .count → ∀ p ∈ e.classes rows,
    ((reference e.prevCols a p.2).getD (.int 0)).toInt < 2 ^ 31

end AggExecutor

section Names

variable {tabs : TabName → TabMeta} {e : AggExecutor} {rows : List Bytes} {js : List Conjunct}

/-- A map of the constructor: the names of the aggregates it does not skip, later ones first. -/
def idxMap (skip : AggregateInfo → Bool) (name : AggregateInfo → String) (aggs : List AggregateInfo) :
    String → Option Nat :=
  aggs.zipIdx.foldl (fun m a => if skip a.1 then m else Function.update m (name a.1) (some a.2)) fun _ => none

theorem idxMap_concat (skip : AggregateInfo → Bool) (name : AggregateInfo → String) (aggs : List AggregateInfo)
    (b : AggregateInfo) : idxMap skip name (aggs ++ [b]) =
      if skip b then idxMap skip name aggs
      else Function.update (idxMap skip name aggs) (name b) (some aggs.length) := by
  unfold idxMap
  rw [List.zipIdx_append, List.foldl_append]
  show (if skip b then idxMap skip name aggs
    else Function.update (idxMap skip name aggs) (name b) (some (0 + aggs.length))) = _
  rw [Nat.zero_add]
  rfl

/-- An aggregate of another name leaves the entry of `s` alone. -/
theorem idxMap_other {skip : AggregateInfo → Bool} {name : AggregateInfo → String} {s : String}
    (aggs : List AggregateInfo) : ∀ {after : List AggregateInfo}, (∀ y ∈ after, ¬ (skip y = false ∧ name y = s)) →
      idxMap skip name (aggs ++ after) s = idxMap skip name aggs s := by
  intro after
  induction after using List.reverseRecOn with
  | nil =>
      intro _
      rw [List.append_nil]
  | append_singleton after b ih =>
      intro h
      have hb := h b (List.mem_append_right _ (List.mem_singleton_self b))
      have hrest := ih fun y hy => h y (List.mem_append_left _ hy)
      rw [← List.append_assoc, idxMap_concat]
      by_cases hskip : skip b = true
      · rw [if_pos hskip, hrest]
      · have hname : s ≠ name b := fun hs => hb ⟨Bool.eq_false_iff.2 hskip, hs.symm⟩
        rw [if_neg hskip, Function.update_of_ne hname, hrest]

/-- The entry of `s` is the last aggregate of that name. -/
theorem idxMap_last {skip : AggregateInfo → Bool} {name : AggregateInfo → String} {s : String}
    {aggs : List AggregateInfo} {b : AggregateInfo} (h : LastOf (fun y => skip y = false ∧ name y = s) aggs b) :
    ∃ k, idxMap skip name aggs s = some k ∧ aggs[k]? = some b := by
  obtain ⟨before, after, rfl, ⟨hskip, hname⟩, hafter⟩ := h
  refine ⟨before.length, ?_, ?_⟩
  · rw [← List.singleton_append, ← List.append_assoc, idxMap_other _ hafter, idxMap_concat,
      if_neg (Bool.eq_false_iff.1 hskip), hname, Function.update_self]
  · rw [List.getElem?_append_right le_rfl, Nat.sub_self]
    rfl

theorem idxMap_none {skip : AggregateInfo → Bool} {name : AggregateInfo → String} {s : String}
    {aggs : List AggregateInfo} (h : ∀ y ∈ aggs, ¬ (skip y = false ∧ name y = s)) :
    idxMap skip name aggs s = none := idxMap_other [] h

theorem aliasToIdx_eq (e : AggExecutor) :
    e.aliasToIdx = idxMap (fun a => decide (a.aliasName = "")) AggregateInfo.aliasName e.aggExprs := by
  simp only [idxMap, decide_eq_true_eq]
  rfl

theorem nameToIdx_eq (e : AggExecutor) : e.nameToIdx = idxMap (fun _ => false) AggregateInfo.toString e.aggExprs := by
  simp only [idxMap, Bool.false_eq_true, if_false]
  rfl

theorem hasAlias_iff (s : String) (a : AggregateInfo) : HasAlias s a ↔ decide (a.aliasName = "") = false ∧ a.aliasName = s := by
  rw [decide_eq_false_iff_not]
  rfl

/-- The lookup of an aggregate's text finds the aggregate. -/
theorem aggIdx_of_last {s : String} {b : AggregateInfo}
    (h : LastOf (HasAlias s) e.aggExprs b ∨
      (∀ x ∈ e.aggExprs, ¬ HasAlias s x) ∧ LastOf (fun x => x.toString = s) e.aggExprs b) :
    ∃ k, (e.aliasToIdx s).or (e.nameToIdx s) = some k ∧ e.aggExprs[k]? = some b := by
  rw [aliasToIdx_eq, nameToIdx_eq]
  rcases h with halias | ⟨hnone, before, after, hsplit, hname, hafter⟩
  · rw [funext fun a => propext (hasAlias_iff s a)] at halias
    obtain ⟨k, hk, hb⟩ := idxMap_last halias
    exact ⟨k, by rw [hk, Option.some_or], hb⟩
  · have hlast : LastOf (fun y => (fun _ : AggregateInfo => false) y = false ∧ AggregateInfo.toString y = s) e.aggExprs b :=
      ⟨before, after, hsplit, ⟨rfl, hname⟩, fun y hy hs => hafter y hy hs.2⟩
    obtain ⟨k, hk, hb⟩ := idxMap_last hlast
    refine ⟨k, ?_, hb⟩
    rw [idxMap_none fun y hy hs => hnone y hy ((hasAlias_iff s y).2 hs), Option.none_or, hk]

theorem fitsGroup_iff (c g : TabCol) :
    (decide (g.colName = c.colName) && (decide (c.tabName = "") || decide (g.tabName = c.tabName))) = true ↔ FitsGroup c g := by
  rw [Bool.and_eq_true, Bool.or_eq_true, decide_eq_true_iff, decide_eq_true_iff, decide_eq_true_iff]
  rfl

/-- The lookup finds the group column that the text names. -/
theorem havingSource_group {c : TabCol} {i : Nat} (h : e.Names c (.group i)) :
    e.havingSource c = some (.group i) ∧ i < e.groupCols.length := by
  obtain ⟨g, hg, hfit, hfirst⟩ := h
  obtain ⟨hlt, rfl⟩ := List.getElem?_eq_some_iff.1 hg
  have hidx : e.groupCols.findIdx? (fun g =>
      decide (g.colName = c.colName) && (decide (c.tabName = "") || decide (g.tabName = c.tabName))) = some i := by
    rw [List.findIdx?_eq_some_iff_getElem]
    refine ⟨hlt, (fitsGroup_iff c _).2 hfit, fun k hk hfitk => ?_⟩
    exact hfirst k hk _ (List.getElem?_eq_getElem (hk.trans hlt)) ((fitsGroup_iff c _).1 hfitk)
  unfold AggExecutor.havingSource
  rw [hidx]
  exact ⟨rfl, hlt⟩

/-- The lookup finds an aggregate with the values of the one that the text names. -/
theorem havingSource_agg {c : TabCol} {a : AggregateInfo} (h : e.Names c (.agg a)) :
    ∃ k b, e.havingSource c = some (.agg k) ∧ e.aggExprs[k]? = some b ∧ SameAggregate a b := by
  obtain ⟨hgroups, b, hsame, hlast⟩ := h
  have hidx : e.groupCols.findIdx? (fun g =>
      decide (g.colName = c.colName) && (decide (c.tabName = "") || decide (g.tabName = c.tabName))) = none := by
    rw [List.findIdx?_eq_none_iff]
    intro g hg
    exact Bool.eq_false_iff.2 fun hfit => hgroups g hg ((fitsGroup_iff c g).1 hfit)
  obtain ⟨k, hk, hb⟩ := aggIdx_of_last hlast
  refine ⟨k, b, ?_, hb, hsame⟩
  unfold AggExecutor.havingSource
  rw [hidx]
  show ((e.aliasToIdx c.colName).or (e.nameToIdx c.colName)).map Source.agg = _
  rw [hk]
  rfl

theorem reference_congr {prevCols : Cols} {a b : AggregateInfo} (h : SameAggregate a b) (cls : List Bytes) :
    reference prevCols a cls = reference prevCols b cls := by
  unfold reference
  rw [h.type, h.col, h.star, h.distinct]

/-- `MIN` and `MAX` of a class with records have a value. -/
theorem hasValue_of_ne_nil {prevCols : Cols} {a : AggregateInfo} (ht : a.type ≠ .count) {c : ColMeta}
    (hc : findCol prevCols a.col = some c) {cls : List Bytes} (hne : cls ≠ []) :
    (stateOf prevCols a cls).hasValue = true := by
  induction cls using List.reverseRecOn with
  | nil => exact absurd rfl hne
  | append_singleton cls d _ =>
      rw [stateOf_concat, add_value ht hc]
      unfold AggState.addValue
      cases c.type <;> rfl

/-- A count that fits, and an extreme of some records, are values of 32 bits. -/
theorem reference_low {prevCols : Cols} {a : AggregateInfo} (hok : AggregateOk tabs prevCols a)
    (hplain : Plain a) {cls : List Bytes} (hrows : ∀ r ∈ cls, RecordOk prevCols r) (hne : a.type = .count ∨ cls ≠ [])
    (hcount : a.type = .count → ((reference prevCols a cls).getD (.int 0)).toInt < 2 ^ 31) :
    ∃ x, reference prevCols a cls = some x ∧ x.low = x := by
  rcases hplain with ht | ⟨ht, hfloat⟩
  · have href : ∃ n : Nat, reference prevCols a cls = some (.int n) := reference_count ht cls
    obtain ⟨n, hn⟩ := href
    have hfit := hcount ht
    rw [hn] at hfit
    exact ⟨_, hn, (low_nat n).2 hfit⟩
  · obtain ⟨o, ho⟩ := exists_extreme hok ht hfloat hrows
    have htype := ne_count_of_extreme ht
    obtain ⟨c, m, hc, -⟩ := hok.column_of_ne htype
    have hvalue := ho.hasValue
    rw [hasValue_of_ne_nil htype hc (hne.resolve_left htype)] at hvalue
    obtain ⟨v, hv⟩ := Option.isSome_iff_exists.1 hvalue.symm
    subst hv
    exact ⟨_, ho.reference, datum_low v⟩

theorem ne_nil_of_classes (hne : rows ≠ [] ∨ e.groupCols ≠ []) {p : List Datum × List Bytes}
    (hp : p ∈ e.classes rows) : p.2 ≠ [] := by
  unfold AggExecutor.classes at hp
  cases hplain : e.plainAgg with
  | true =>
      rw [if_pos hplain, List.mem_singleton] at hp
      subst hp
      rcases hne with hne | hne
      · exact hne
      · exact absurd (List.isEmpty_iff.1 hplain) hne
  | false =>
      rw [if_neg (by simp [hplain])] at hp
      obtain ⟨k, hk, rfl⟩ := List.mem_map.1 hp
      obtain ⟨r, hr, rfl⟩ := List.mem_map.1 (List.mem_eraseDups.1 hk)
      exact List.ne_nil_of_mem (List.mem_filter.2 ⟨hr, decide_eq_true rfl⟩)

/-- A readable conjunct has its value at the entry its text is looked up to. -/
theorem targetValue_of_readable (hok : AggOk tabs e) (hplain : ∀ a ∈ e.aggExprs, Plain a)
    (hrows : ∀ r ∈ rows, RecordOk e.prevCols r) {j : Conjunct} (h : e.Readable rows j) {p : List Datum × List Bytes}
    (hp : p ∈ e.classes rows) :
    ∃ s, e.havingSource j.lhsCol = some s ∧ e.targetValue p j.target = some (e.entryDatum p s) := by
  have hnames := h.names
  cases ht : j.target with
  | group i =>
      rw [ht] at hnames
      obtain ⟨hsource, hlt⟩ := havingSource_group hnames
      refine ⟨_, hsource, ?_⟩
      have hlt' : i < p.1.length := by
        obtain ⟨gcs, gs, as, hlayout⟩ := hok.layout
        rw [length_of_classes hp, hlayout.found, hlayout.shape.length_eq, ← hlayout.length]
        exact hlt
      show p.1[i]? = some (p.1.getD i (.int 0))
      rw [List.getD_eq_getElem _ _ hlt', List.getElem?_eq_getElem hlt']
  | agg a =>
      rw [ht] at hnames
      obtain ⟨k, b, hsource, hb, hsame⟩ := havingSource_agg hnames
      refine ⟨_, hsource, ?_⟩
      have hmem := List.mem_of_getElem? hb
      have hne : b.type = .count ∨ p.2 ≠ [] := by
        rw [← hsame.type]
        by_cases hcount : a.type = .count
        · exact .inl hcount
        · refine .inr (ne_nil_of_classes ?_ hp)
          by_contra hempty
          rw [not_or, not_not, not_not] at hempty
          exact hcount (h.extreme hempty.1 hempty.2 a ht)
      have hfit : b.type = .count → ((reference e.prevCols b p.2).getD (.int 0)).toInt < 2 ^ 31 := by
        rw [← hsame.type, ← reference_congr hsame]
        exact fun hcount => h.count a ht hcount p hp
      obtain ⟨x, hx, hlow⟩ := reference_low (hok.agg b hmem) (hplain b hmem) (rows_of_classes hrows hp) hne hfit
      simp only [AggExecutor.targetValue, AggExecutor.entryDatum, hb, reference_congr hsame, hx, Option.getD_some, hlow]

/-- Readable conjuncts give in every class the verdict they mean. -/
theorem verdictsAgree_of_readable (hok : AggOk tabs e) (hplain : ∀ a ∈ e.aggExprs, Plain a)
    (hrows : ∀ r ∈ rows, RecordOk e.prevCols r) (hread : ∀ j ∈ js, e.Readable rows j) : VerdictsAgree e js rows := by
  intro p hp
  unfold AggExecutor.passes
  rw [Bool.eq_iff_iff, List.all_eq_true, List.all_eq_true]
  apply forall₂_congr
  intro j hj
  obtain ⟨s, hs, hvalue⟩ := targetValue_of_readable hok hplain hrows (hread j hj) hp
  unfold AggExecutor.readAt AggExecutor.conjunctHolds
  rw [hs, hvalue, (hread j hj).rhs]
  rfl

end Names

/-! ## A query that counts a column twice -/

/-- The columns of a child that scans `t(a INT, b INT)`. -/
def abCols : List ColMeta := [⟨"a", .int, 4, 0⟩, ⟨"b", .int, 4, 4⟩]

theorem abCols_layout : ColsAt 0 abCols := by decide

theorem abCols_indexed : ∀ ix ∈ ([] : List (List ColMeta)), ∀ c ∈ ix, c ∈ abCols := by simp

def abTab : TabMeta := ⟨abCols, [], abCols_layout, abCols_indexed⟩

def countOf (distinct : Bool) : AggregateInfo := { type := .count, col := ⟨"t", "b"⟩, distinct := distinct }

/-- `count(b) >= 2`, meant for `COUNT(b)`. -/
def twice : Conjunct := ⟨.agg (countOf false), .ge, .lit (.int 2), ⟨"", "count(b)"⟩, .int 2⟩

/-- `SELECT a, … FROM t GROUP BY a HAVING count(b) >= 2`. -/
def byA (aggs : List AggregateInfo) (cols : List ColMeta) : AggExecutor where
  prevCols := Query.tabCols abTab "t"
  groupCols := [⟨"t", "a"⟩]
  aggExprs := aggs
  havingConds := [twice.cond]
  cols := cols

def oneCount : AggExecutor := byA [countOf false] [⟨"a", .int, 4, 0⟩, ⟨"count(b)", .int, 4, 4⟩]

/-- `COUNT(b), COUNT(DISTINCT b)`. -/
def twoCounts : AggExecutor :=
  byA [countOf false, countOf true]
    [⟨"a", .int, 4, 0⟩, ⟨"count(b)", .int, 4, 4⟩, ⟨"count(b)", .int, 4, 8⟩]

/-- Two records with `a = 1` and `b = 5`. -/
def sameTwice : List Bytes := List.replicate 2 [1, 0, 0, 0, 5, 0, 0, 0]

theorem countOf_ok (d : Bool) : AggregateOk (fun _ => abTab) (Query.tabCols abTab "t") (countOf d) := by
  have hfind : findCol (Query.tabCols abTab "t") ⟨"t", "b"⟩ = some ⟨"b", .int, 4, 4⟩ := by decide
  have hget : getCol (fun _ => abTab) ⟨"t", "b"⟩ = some ⟨"b", .int, 4, 4⟩ := by decide
  exact ⟨by rintro ⟨⟩, fun _ => ⟨_, _, hfind, hget, rfl, rfl, fun _ => rfl⟩⟩

theorem oneCount_ok : AggOk (fun _ => abTab) oneCount := by
  refine ⟨by decide, ?_, ?_⟩
  · intro g hg
    rw [List.mem_singleton.1 hg]
    exact ⟨⟨"a", .int, 4, 0⟩, ⟨"a", .int, 4, 0⟩, by decide, by decide, rfl, rfl⟩
  · intro a ha
    rw [List.mem_singleton.1 ha]
    exact countOf_ok false

theorem sameTwice_ok : ∀ r ∈ sameTwice, RecordOk (Query.tabCols abTab "t") r := by
  intro r hr
  rw [(List.mem_replicate.1 hr).2]
  intro e he
  rcases List.mem_cons.1 he with rfl | he
  · exact ⟨rfl, fun _ => rfl, by rintro ⟨⟩⟩
  · rw [List.mem_singleton.1 he]
    exact ⟨rfl, fun _ => rfl, by rintro ⟨⟩⟩

theorem oneCount_plain : ∀ a ∈ oneCount.aggExprs, Plain a := by
  intro a ha
  rw [List.mem_singleton.1 ha]
  exact .inl rfl

/-- A query whose text names another aggregate may be right by chance: here no value of `b` comes twice. -/
theorem right_twoCounts_apart : ¬ twoCounts.Names twice.lhsCol twice.target ∧
    Right twoCounts [twice] [[1, 0, 0, 0, 5, 0, 0, 0], [1, 0, 0, 0, 6, 0, 0, 0]] := by
  constructor
  · intro h
    obtain ⟨k, b, hsource, hb, hsame⟩ := havingSource_agg h
    have hlast : twoCounts.havingSource twice.lhsCol = some (.agg 1) := by decide
    rw [hlast] at hsource
    cases hsource
    have hb' : some (countOf true) = some b := hb
    cases hb'
    exact absurd hsame.distinct (by decide)
  · refine ⟨_, rfl, ?_⟩
    decide

theorem twoCounts_ok : AggOk (fun _ => abTab) twoCounts := by
  refine ⟨by decide, oneCount_ok.group, ?_⟩
  intro a ha
  rcases List.mem_cons.1 ha with rfl | ha
  · exact countOf_ok false
  · rw [List.mem_singleton.1 ha]
    exact countOf_ok true

end Rmdb.Sql
