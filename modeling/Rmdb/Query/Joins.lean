import Rmdb.Query.Eval

/-!
# Index nested loop join and nested loop join

A probe returns the right rows whose index key equals the lookup key and that satisfy the
conditions, a sublist of what the nested loop join pairs with the left row.  The two joins
agree exactly when every pair of rows that satisfies the conditions binds every column of the
index and compares equal on it (`inlj_perm_iff`, up to NaN).
-/

namespace Rmdb.Query

open Rmdb.Index (Rid)
open Rmdb.Txn

/-! ## Lists -/

section

variable {α β : Type*} {p q : α → Bool} {es : List α}

theorem all_congr_of_mem (h : ∀ a ∈ es, p a = q a) : es.all p = es.all q := by
  rw [Bool.eq_iff_iff, List.all_eq_true, List.all_eq_true]
  exact forall₂_congr fun a ha => by rw [h a ha]

theorem toList_find?_sublist : ∀ es : List α, ((es.find? p).toList).Sublist (es.filter p) := by
  intro es
  induction es with
  | nil => exact .refl _
  | cons a es ih =>
      by_cases ha : p a = true
      · rw [List.find?_cons_of_pos ha, List.filter_cons_of_pos ha]
        exact .cons_cons a (List.nil_sublist _)
      · rw [List.find?_cons_of_neg ha, List.filter_cons_of_neg ha]
        exact ih

/-- The only element with `p` is the one `find?` returns. -/
theorem filter_eq_toList_find? : ∀ {es : List α}, es.Pairwise (fun a b => p a = true → p b = false) →
    es.filter p = (es.find? p).toList := by
  intro es
  induction es with
  | nil => intro _; rfl
  | cons a es ih =>
      intro h
      obtain ⟨hhead, htail⟩ := List.pairwise_cons.1 h
      by_cases ha : p a = true
      · rw [List.find?_cons_of_pos ha, List.filter_cons_of_pos ha, List.filter_eq_nil_iff.2]
        · rfl
        · intro b hb
          rw [hhead b hb ha]
          decide
      · rw [List.find?_cons_of_neg ha, List.filter_cons_of_neg ha, ih htail]

theorem filterMap_filter_sublist (f : α → Option β) (es : List α) :
    ((es.filter q).filterMap f).Sublist (es.filterMap f) := List.filter_sublist.filterMap f

theorem filterMap_filter_eq {f : α → Option β} (h : ∀ e ∈ es, (f e).isSome = true → q e = true) :
    (es.filter q).filterMap f = es.filterMap f := by
  rw [List.filterMap_filter]
  refine List.filterMap_congr fun e he => ?_
  cases hf : f e with
  | none => simp
  | some b => rw [if_pos (h e he (by rw [hf]; rfl))]

/-- A filter that loses no result of `f` keeps every element with a result. -/
theorem of_length_filterMap_filter {f : α → Option β} : ∀ {es : List α},
    ((es.filter q).filterMap f).length = (es.filterMap f).length →
      ∀ e ∈ es, (f e).isSome = true → q e = true := by
  intro es
  induction es with
  | nil => intro _ e he; cases he
  | cons a es ih =>
      intro h e he hf
      have hle := (filterMap_filter_sublist (q := q) f es).length_le
      by_cases ha : q a = true
      · rw [List.filter_cons_of_pos ha, List.filterMap_cons, List.filterMap_cons] at h
        rcases List.mem_cons.1 he with rfl | he
        · exact ha
        · refine ih ?_ e he hf
          cases hfa : f a with
          | none =>
              rw [hfa] at h
              exact h
          | some b =>
              rw [hfa, List.length_cons, List.length_cons] at h
              omega
      · rw [List.filter_cons_of_neg ha, List.filterMap_cons] at h
        cases hfa : f a with
        | none =>
            rw [hfa] at h
            rcases List.mem_cons.1 he with rfl | he
            · rw [hfa] at hf
              cases hf
            · exact ih h e he hf
        | some b =>
            rw [hfa, List.length_cons] at h
            omega

/-- Lists that are pointwise no longer and of one total length are of one length each. -/
theorem length_eq_of_flatMap {f g : α → List β} : ∀ {ls : List α},
    (∀ l ∈ ls, (f l).length ≤ (g l).length) → (ls.flatMap f).length = (ls.flatMap g).length →
      ∀ l ∈ ls, (f l).length = (g l).length := by
  intro ls
  induction ls with
  | nil => intro _ _ l hl; cases hl
  | cons a ls ih =>
      intro hle h l hl
      rw [List.flatMap_cons, List.flatMap_cons, List.length_append, List.length_append] at h
      have ha := hle a List.mem_cons_self
      have hrest : (ls.flatMap f).length ≤ (ls.flatMap g).length := by
        rw [List.length_flatMap, List.length_flatMap]
        exact List.sum_le_sum fun l hl => hle l (List.mem_cons_of_mem _ hl)
      rcases List.mem_cons.1 hl with rfl | hl
      · omega
      · exact ih (fun l hl => hle l (List.mem_cons_of_mem _ hl)) (by omega) l hl

end

/-! ## The lookup key -/

/-- What the index join needs of its inputs: the conditions of the right scan are on the right
table, those of the join can be evaluated, and an equality with an index column copies bytes
of the left row. -/
structure JoinOk (m : TabMeta) (lcols : Cols) (llen : Nat) (tab : TabName) (ix : List ColMeta)
    (rightConds joinConds : List Condition) : Prop where
  table : TabOk m
  index : ∀ c ∈ ix, m.findCol c.name = some c
  named : tab ≠ ""
  fresh : ∀ e ∈ lcols, e.1 ≠ tab
  rights : ∀ c ∈ rightConds, ScanCondOk (tabCols m tab) c ∧ c.lhsCol.tabName = tab ∧
    (c.rhsVal = none → c.rhsCol.tabName = tab)
  lits : ∀ c ∈ rightConds, ∀ v, c.rhsVal = some v → ∀ col, m.findCol c.lhsCol.colName = some col →
    Words col ∧ col.len ≤ v.length
  joins : ∀ c ∈ joinConds, CondOk lcols (tabCols m tab) llen c
  copies : ∀ c ∈ ix, ∀ lcol, joinKeyCol tab c.name joinConds = some lcol →
    ∃ col, findCol lcols lcol = some col ∧ col.offset + c.len ≤ llen

/-- Is the index column bound to bytes that compare equal with the right row's? -/
def PartAgrees (lcols : Cols) (tab : TabName) (rightConds joinConds : List Condition) (l r : Bytes)
    (c : ColMeta) : Prop :=
  ∃ part, keyPart lcols tab rightConds joinConds l c = .ok (some part) ∧
    cmpBytes (r.drop c.offset) part c.len c.type = 0

/-- Every column of the index is bound and agrees. -/
def KeyAgrees (lcols : Cols) (tab : TabName) (rightConds joinConds : List Condition)
    (ix : List ColMeta) (l r : Bytes) : Prop :=
  ∀ c ∈ ix, PartAgrees lcols tab rightConds joinConds l r c

/-- No column of the index is bound to a NaN. -/
def KeyNumbers (lcols : Cols) (tab : TabName) (rightConds joinConds : List Condition)
    (ix : List ColMeta) (l : Bytes) : Prop :=
  ∀ c ∈ ix, ∀ part, keyPart lcols tab rightConds joinConds l c = .ok (some part) → NaNFree c part

section

variable {m : TabMeta} {lcols : Cols} {llen : Nat} {tab : TabName} {ix : List ColMeta}
  {rightConds joinConds : List Condition} {l : Bytes}

theorem keyPart_ok (h : JoinOk m lcols llen tab ix rightConds joinConds) (hl : l.length = llen)
    {c : ColMeta} (hc : c ∈ ix) :
    keyPart lcols tab rightConds joinConds l c = .ok none ∨
      ∃ part, keyPart lcols tab rightConds joinConds l c = .ok (some part) ∧ part.length = c.len := by
  unfold keyPart
  cases hlit : literalKey tab c.name rightConds with
  | some v =>
      right
      unfold literalKey at hlit
      obtain ⟨cond, hfind, hv⟩ := Option.bind_eq_some_iff.1 hlit
      have hp := List.find?_some hfind
      simp only [Bool.and_eq_true, decide_eq_true_eq] at hp
      have hcol : m.findCol cond.lhsCol.colName = some c := by
        rw [hp.2]
        exact h.index c hc
      obtain ⟨-, hlen⟩ := h.lits cond (List.mem_of_find?_eq_some hfind) v hv c hcol
      exact ⟨v.take c.len, rfl, by rw [List.length_take]; omega⟩
  | none =>
      cases hjoin : joinKeyCol tab c.name joinConds with
      | none => exact .inl rfl
      | some lcol =>
          right
          obtain ⟨col, hcol, hfits⟩ := h.copies c hc lcol hjoin
          simp only [hcol]
          exact ⟨_, rfl, getBytes_length (by omega)⟩

/-- What `build_lookup_key` makes of a left row: nothing when a column is unbound, else a key
that compares equal with the keys of the right rows that agree. -/
theorem buildLookupKey_spec (h : JoinOk m lcols llen tab ix rightConds joinConds)
    (hl : l.length = llen) : ∀ cs : List ColMeta, (∀ c ∈ cs, c ∈ ix) →
    (buildLookupKey lcols tab rightConds joinConds l cs = .ok none ∧
        ∃ c ∈ cs, keyPart lcols tab rightConds joinConds l c = .ok none) ∨
      ∃ key, buildLookupKey lcols tab rightConds joinConds l cs = .ok (some key) ∧
        key.length = keyLen cs ∧
        (KeyNumbers lcols tab rightConds joinConds cs l → KeyNaNFree cs key) ∧
        ∀ r : Bytes, r.length = m.recordSize → (ixCompare cs (Db.indexKey cs r) key = 0 ↔
          KeyAgrees lcols tab rightConds joinConds cs l r) := by
  intro cs
  induction cs with
  | nil =>
      intro _
      right
      refine ⟨[], rfl, rfl, fun _ => trivial, fun r _ => ?_⟩
      simp [ixCompare, KeyAgrees]
  | cons c cs ih =>
      intro hcs
      have hc := hcs c List.mem_cons_self
      have hmem : c ∈ m.cols := TabMeta.findCol_mem (h.index c hc)
      have hw := h.table.words c hmem
      rw [buildLookupKey]
      obtain hnone | ⟨part, hpart, hlen⟩ := keyPart_ok h hl hc
      · rw [hnone]
        exact .inl ⟨rfl, c, List.mem_cons_self, hnone⟩
      · rw [hpart]
        obtain ⟨hrest, d, hd, hdnone⟩ | ⟨key, hrest, hkeylen, hnum, hcmp⟩ :=
          ih fun d hd => hcs d (List.mem_cons_of_mem _ hd)
        · left
          refine ⟨?_, d, List.mem_cons_of_mem _ hd, hdnone⟩
          dsimp only [Bind.bind, Except.bind]
          rw [hrest]
          rfl
        · right
          refine ⟨part ++ key, ?_, ?_, ?_, ?_⟩
          · dsimp only [Bind.bind, Except.bind]
            rw [hrest]
            rfl
          · rw [List.length_append, hlen, hkeylen]
            simp [keyLen]
          · intro hnan
            refine (@keyNaNFree_append [c] cs part key (by simpa using hw)
              (by simpa [keyLen] using hlen)).2 ⟨⟨hnan c List.mem_cons_self part hpart, trivial⟩, ?_⟩
            exact hnum fun d hd => hnan d (List.mem_cons_of_mem _ hd)
          · intro r hr
            have hfits := m.fits hmem
            rw [indexKey_cons, ixCompare_cons hw (getBytes_length (by omega)) hlen,
              cmpBytes_getBytes hw]
            have hagree : KeyAgrees lcols tab rightConds joinConds (c :: cs) l r ↔
                cmpBytes (r.drop c.offset) part c.len c.type = 0 ∧
                  KeyAgrees lcols tab rightConds joinConds cs l r := by
              unfold KeyAgrees PartAgrees
              rw [List.forall_mem_cons]
              simp only [hpart, Except.ok.injEq, Option.some.injEq, exists_eq_left']
            rw [hagree, ← hcmp r hr]
            split
            · next hne => simp [hne]
            · next h0 =>
              rw [not_not] at h0
              simp [h0]

end

/-! ## The rows of a table by its index -/

/-- An index with exactly one entry for each row, in key order: an entry leads to a row whose
visible version has its key. -/
structure IndexOk (db : Db) (t : TxnId) (tab : TabName) (ix : List ColMeta) : Prop where
  ordered : Ordered ix (db.index (Db.indexId tab ix))
  entries : ((db.index (Db.indexId tab ix)).map Prod.snd).Perm (db.rmScan tab)
  keys : ∀ e ∈ db.index (Db.indexId tab ix), EntryOk db t tab ix e

/-- The row under a rid, if the transaction sees it and it satisfies `p`. -/
def rowOf (db : Db) (t : TxnId) (tab : TabName) (p : Bytes → Bool) (rid : Rid) : Option Bytes :=
  ((db.readRow t ⟨tab, rid⟩).filter fun img => p img.bytes).map Image.bytes

theorem rowOf_eq_some {db : Db} {t : TxnId} {tab : TabName} {p : Bytes → Bool} {rid : Rid} {b : Bytes} :
    rowOf db t tab p rid = some b ↔
      ∃ img, db.readRow t ⟨tab, rid⟩ = some img ∧ p img.bytes = true ∧ img.bytes = b := by
  unfold rowOf
  rw [Option.map_eq_some_iff]
  constructor
  · rintro ⟨img, himg, rfl⟩
    obtain ⟨hread, hp⟩ := Option.filter_eq_some_iff.1 himg
    exact ⟨img, hread, hp, rfl⟩
  · rintro ⟨img, hread, hp, rfl⟩
    exact ⟨img, Option.filter_eq_some_iff.2 ⟨hread, hp⟩, rfl⟩

theorem seqScan_rows (db : Db) (t : TxnId) (tab : TabName) (conds : List Condition) :
    (seqScan db t tab conds).map Prod.snd = (db.rmScan tab).filterMap (rowOf db t tab fun b =>
      serCompiledMatch b (compileConds (tabCols (db.tabs tab) tab) conds)) := by
  unfold seqScan rowOf
  rw [List.map_filterMap]
  refine List.filterMap_congr fun rid _ => ?_
  rw [Option.map_map]
  rfl

/-! ## The probe -/

section

variable {db : Db} {t : TxnId} {lcols : Cols} {llen : Nat} {tab : TabName} {ix : List ColMeta}
  {rightConds joinConds : List Condition} {l : Bytes}

/-- The conditions of the right scan and of the join on a pair of rows. -/
def pairMatches (m : TabMeta) (tab : TabName) (lcols : Cols) (rightConds joinConds : List Condition)
    (l r : Bytes) : Bool :=
  serCompiledMatch r (compileConds (tabCols m tab) rightConds) &&
    evalJoinConds lcols (tabCols m tab) joinConds l r

theorem all_evalCond_append (h : JoinOk (db.tabs tab) lcols llen tab ix rightConds joinConds)
    (hl : l.length = llen) (r : Bytes) :
    (rightConds ++ joinConds).all
        (evalCond (lcols ++ shiftCols llen (tabCols (db.tabs tab) tab)) (l ++ r)) =
      pairMatches (db.tabs tab) tab lcols rightConds joinConds l r := by
  have hout : ∀ {c : TabCol}, c.tabName = tab → findCol lcols c = none ∧ c.tabName ≠ "" := by
    intro c hc
    have hne : c.tabName ≠ "" := by
      rw [hc]
      exact h.named
    exact ⟨findCol_eq_none hne fun e he => by rw [hc]; exact h.fresh e he, hne⟩
  -- a side on the right table can be read in the joined row
  have hoperand : ∀ {c : TabCol} {col : ColMeta} {len : Nat}, c.tabName = tab →
      findCol (tabCols (db.tabs tab) tab) c = some col →
      operandCol lcols (tabCols (db.tabs tab) tab) c = some col ∧
        OperandOk lcols (tabCols (db.tabs tab) tab) llen len c := by
    intro c col len hc hcol
    obtain ⟨hnone, hne⟩ := hout hc
    refine ⟨?_, hne, .inr ⟨hnone, col, hcol⟩⟩
    rw [operandCol, hnone, hcol]
    rfl
  rw [List.all_append, pairMatches, serCompiledMatch_compileConds fun c hc => (h.rights c hc).1]
  congr 1
  · refine all_congr_of_mem fun c hc => ?_
    obtain ⟨hok, hlhs, hrhs⟩ := h.rights c hc
    obtain ⟨col, hcol⟩ := hok.lhs
    have hmem : col ∈ (db.tabs tab).cols := by
      rw [findCol_tabCols hlhs] at hcol
      exact TabMeta.findCol_mem hcol
    rw [evalCond_append hl, evalJoinCond_right hok (hout hlhs) fun hv => hout (hrhs hv)]
    refine ⟨⟨col, (@hoperand _ _ 0 hlhs hcol).1, h.table.words col hmem, (hoperand hlhs hcol).2⟩,
      fun hv col' _ => ?_⟩
    obtain ⟨rcol, hrcol⟩ := hok.rhs hv
    exact (hoperand (hrhs hv) hrcol).2
  · exact all_congr_of_mem fun c hc => evalCond_append hl (h.joins c hc)

/-- Does the key of an entry equal the lookup key of the left row? -/
def probeHit (lcols : Cols) (tab : TabName) (rightConds joinConds : List Condition)
    (ix : List ColMeta) (l : Bytes) (e : Bytes × Rid) : Bool :=
  match buildLookupKey lcols tab rightConds joinConds l ix with
  | .ok (some key) => decide (ixCompare ix e.1 key = 0)
  | _ => false

/-- The row of a hit entry behind the left row. -/
def joinRow (db : Db) (t : TxnId) (tab : TabName) (p : Bytes → Bool) (l : Bytes)
    (e : Bytes × Rid) : Option Bytes :=
  (rowOf db t tab p e.2).map fun r => l ++ r

/-- A probe returns rows of the hit entries, and all of them when the key has no NaN. -/
theorem probeRight_spec (h : JoinOk (db.tabs tab) lcols llen tab ix rightConds joinConds)
    (hix : IndexOk db t tab ix) (hl : l.length = llen) :
    ∃ out, probeRight db t lcols llen tab ix rightConds joinConds l = .ok out ∧
      out.Sublist (((db.index (Db.indexId tab ix)).filter
        (probeHit lcols tab rightConds joinConds ix l)).filterMap
          (joinRow db t tab (pairMatches (db.tabs tab) tab lcols rightConds joinConds l) l)) ∧
      (KeyNumbers lcols tab rightConds joinConds ix l →
        out = ((db.index (Db.indexId tab ix)).filter
          (probeHit lcols tab rightConds joinConds ix l)).filterMap
            (joinRow db t tab (pairMatches (db.tabs tab) tab lcols rightConds joinConds l) l)) := by
  generalize hes : db.index (Db.indexId tab ix) = es
  obtain ⟨hord, hent, -⟩ := hix
  rw [hes] at hord hent
  obtain ⟨hkey, -⟩ | ⟨key, hkey, hkeylen, hnum, -⟩ := buildLookupKey_spec h hl ix fun _ hc => hc
  · refine ⟨[], ?_, List.nil_sublist _, fun _ => ?_⟩
    · unfold probeRight
      rw [hkey]
      rfl
    · rw [List.filter_eq_nil_iff.2]
      · rfl
      · intro e _
        simp [probeHit, hkey]
  · have hhit : probeHit lcols tab rightConds joinConds ix l =
        fun e => decide (ixCompare ix e.1 key = 0) := by
      funext e
      simp [probeHit, hkey]
    have hout : probeRight db t lcols llen tab ix rightConds joinConds l =
        .ok (((es.find? (probeHit lcols tab rightConds joinConds ix l)).toList).filterMap
          (joinRow db t tab (pairMatches (db.tabs tab) tab lcols rightConds joinConds l) l)) := by
      unfold probeRight getValue
      rw [hkey, hes, hhit]
      dsimp only [Bind.bind, Except.bind]
      cases hfind : es.find? fun e => decide (ixCompare ix e.1 key = 0) with
      | none => rfl
      | some e =>
          have hmem : e.2 ∈ db.rmScan tab :=
            hent.subset (List.mem_map_of_mem (List.mem_of_find?_eq_some hfind))
          have hrec : (db.rows ⟨tab, e.2⟩).slot.isRecord = true := (List.mem_filter.1 hmem).2
          simp only [Option.map_some, hrec, Bool.not_true, Bool.false_eq_true, if_false]
          unfold joinRow rowOf
          cases hread : db.readRow t ⟨tab, e.2⟩ with
          | none => simp [hread]; rfl
          | some img =>
              simp only [all_evalCond_append h hl]
              by_cases hp : pairMatches (db.tabs tab) tab lcols rightConds joinConds l img.bytes = true
              · simp [hread, hp, Option.filter_some]; rfl
              · simp [hread, hp, Option.filter_some]; rfl
    refine ⟨_, hout, (toList_find?_sublist es).filterMap _, fun hnan => ?_⟩
    rw [filter_eq_toList_find?]
    refine hord.sorted.imp_of_mem fun {a b} ha hb hab hka => ?_
    have hk : KeyOk ix key := ⟨hkeylen, hnum hnan⟩
    rw [hhit] at hka ⊢
    rw [decide_eq_true_iff, ixCompare_eq_iff (hord.keys a ha) hk] at hka
    rw [ixCompare_lt_iff (hord.keys a ha) (hord.keys b hb), hka] at hab
    rw [decide_eq_false_iff_not, ixCompare_eq_iff (hord.keys b hb) hk]
    exact fun hkb => absurd hkb.symm (ne_of_lt hab)

/-- An entry is hit when the key agrees with its row. -/
theorem probeHit_iff (h : JoinOk (db.tabs tab) lcols llen tab ix rightConds joinConds)
    (hl : l.length = llen) {r : Bytes} (hr : r.length = (db.tabs tab).recordSize) (rid : Rid) :
    probeHit lcols tab rightConds joinConds ix l (Db.indexKey ix r, rid) = true ↔
      KeyAgrees lcols tab rightConds joinConds ix l r := by
  unfold probeHit
  obtain ⟨hkey, c, hc, hnone⟩ | ⟨key, hkey, -, -, hcmp⟩ := buildLookupKey_spec h hl ix fun _ hc => hc
  · rw [hkey]
    refine ⟨fun hf => (by cases hf), fun hagree => ?_⟩
    obtain ⟨part, hpart, -⟩ := hagree c hc
    rw [hnone] at hpart
    cases hpart
  · rw [hkey]
    exact decide_eq_true_iff.trans (hcmp r hr)

theorem joinRow_isSome (hix : IndexOk db t tab ix) {p : Bytes → Bool} {e : Bytes × Rid}
    (he : e ∈ db.index (Db.indexId tab ix)) (h : (joinRow db t tab p l e).isSome = true) :
    ∃ r, rowOf db t tab p e.2 = some r ∧ e = (Db.indexKey ix r, e.2) ∧
      r.length = (db.tabs tab).recordSize := by
  unfold joinRow at h
  rw [Option.isSome_map] at h
  obtain ⟨r, hr⟩ := Option.isSome_iff_exists.1 h
  obtain ⟨img, hread, -, rfl⟩ := rowOf_eq_some.1 hr
  obtain ⟨hkey, hlen⟩ := hix.keys e he img hread
  exact ⟨_, hr, by rw [← hkey], hlen⟩

/-- The nested loop join of one left row, by the entries of the index. -/
theorem nlj_row_perm (hix : IndexOk db t tab ix) :
    ((((seqScan db t tab rightConds).map Prod.snd).filter
        (evalJoinConds lcols (tabCols (db.tabs tab) tab) joinConds l)).map fun r => l ++ r).Perm
      ((db.index (Db.indexId tab ix)).filterMap
        (joinRow db t tab (pairMatches (db.tabs tab) tab lcols rightConds joinConds l) l)) := by
  have hrows : (((seqScan db t tab rightConds).map Prod.snd).filter
        (evalJoinConds lcols (tabCols (db.tabs tab) tab) joinConds l)).map (fun r => l ++ r) =
      (db.rmScan tab).filterMap fun rid =>
        (rowOf db t tab (pairMatches (db.tabs tab) tab lcols rightConds joinConds l) rid).map
          fun r => l ++ r := by
    rw [seqScan_rows, List.filter_filterMap, List.map_filterMap]
    refine List.filterMap_congr fun rid _ => ?_
    unfold rowOf pairMatches
    cases db.readRow t ⟨tab, rid⟩ with
    | none => rfl
    | some img =>
        cases hm : serCompiledMatch img.bytes (compileConds (tabCols (db.tabs tab) tab) rightConds) <;>
          cases hj : evalJoinConds lcols (tabCols (db.tabs tab) tab) joinConds l img.bytes <;>
            simp [hm, hj, Option.filter_some]
  rw [hrows]
  have h := (hix.entries.filterMap fun rid =>
    (rowOf db t tab (pairMatches (db.tabs tab) tab lcols rightConds joinConds l) rid).map
      fun r => l ++ r).symm
  rw [List.filterMap_map] at h
  exact h

end

/-! ## The two joins -/

theorem mapM_ok {α β ε : Type} {f : α → Except ε β} {g : α → β} : ∀ {ls : List α},
    (∀ l ∈ ls, f l = .ok (g l)) → ls.mapM f = .ok (ls.map g) := by
  intro ls
  induction ls with
  | nil => intro _; rfl
  | cons a ls ih =>
      intro h
      rw [List.mapM_cons, h a List.mem_cons_self, ih fun l hl => h l (List.mem_cons_of_mem _ hl)]
      rfl

/-- The index join returns, and returns the rows of the nested loop join over a scan of the
right table. -/
def JoinsAgree (db : Db) (t : TxnId) (lcols : Cols) (llen : Nat) (s s' : ScanPlan)
    (joinConds : List Condition) (ls : List Bytes) : Prop :=
  ∃ rows, indexNestedLoopJoin db t lcols llen s' joinConds ls = .ok rows ∧
    rows.Perm (nestedLoopJoin lcols (tabCols (db.tabs s.tabName) s.tabName) joinConds ls
      ((seqScan db t s.tabName s.conds).map Prod.snd))

/-- A left row and a row of the right scan that satisfy the join conditions. -/
structure Joined (db : Db) (t : TxnId) (lcols : Cols) (s : ScanPlan) (joinConds : List Condition)
    (ls : List Bytes) (l r : Bytes) : Prop where
  left : l ∈ ls
  right : r ∈ (seqScan db t s.tabName s.conds).map Prod.snd
  conds : evalJoinConds lcols (tabCols (db.tabs s.tabName) s.tabName) joinConds l r = true

section

variable {db : Db} {t : TxnId} {lcols : Cols} {llen : Nat} {s s' : ScanPlan}
  {joinConds : List Condition} {ix : List ColMeta} {ls : List Bytes} {l r : Bytes}

theorem joined_iff : Joined db t lcols s joinConds ls l r ↔ l ∈ ls ∧
    ∃ rid ∈ db.rmScan s.tabName, rowOf db t s.tabName
      (pairMatches (db.tabs s.tabName) s.tabName lcols s.conds joinConds l) rid = some r := by
  constructor
  · rintro ⟨hl, hr, hjoin⟩
    rw [seqScan_rows] at hr
    obtain ⟨rid, hrid, hrow⟩ := List.mem_filterMap.1 hr
    obtain ⟨img, hread, hp, rfl⟩ := rowOf_eq_some.1 hrow
    exact ⟨hl, rid, hrid, rowOf_eq_some.2 ⟨img, hread, by rw [pairMatches, hp, hjoin]; rfl, rfl⟩⟩
  · rintro ⟨hl, rid, hrid, hrow⟩
    obtain ⟨img, hread, hp, rfl⟩ := rowOf_eq_some.1 hrow
    rw [pairMatches, Bool.and_eq_true] at hp
    refine ⟨hl, ?_, hp.2⟩
    rw [seqScan_rows]
    exact List.mem_filterMap.2 ⟨rid, hrid, rowOf_eq_some.2 ⟨img, hread, hp.1, rfl⟩⟩

/-- A joined pair comes from an entry of the index. -/
theorem Joined.entry (hix : IndexOk db t s.tabName ix) (h : Joined db t lcols s joinConds ls l r) :
    ∃ e ∈ db.index (Db.indexId s.tabName ix), rowOf db t s.tabName
      (pairMatches (db.tabs s.tabName) s.tabName lcols s.conds joinConds l) e.2 = some r := by
  obtain ⟨-, rid, hrid, hrow⟩ := joined_iff.1 h
  obtain ⟨e, he, rfl⟩ := List.mem_map.1 (hix.entries.symm.subset hrid)
  exact ⟨e, he, hrow⟩

/-- A hit entry whose row matches makes a joined pair that agrees, and every joined pair that
agrees comes from a hit entry. -/
theorem hit_of_joined (hok : JoinOk (db.tabs s.tabName) lcols llen s.tabName ix s.conds joinConds)
    (hix : IndexOk db t s.tabName ix) (hls : ∀ l ∈ ls, l.length = llen) (hl : l ∈ ls)
    {e : Bytes × Rid} (he : e ∈ db.index (Db.indexId s.tabName ix))
    (hrow : (joinRow db t s.tabName
      (pairMatches (db.tabs s.tabName) s.tabName lcols s.conds joinConds l) l e).isSome = true) :
    ∃ r, Joined db t lcols s joinConds ls l r ∧
      (probeHit lcols s.tabName s.conds joinConds ix l e = true ↔
        KeyAgrees lcols s.tabName s.conds joinConds ix l r) := by
  obtain ⟨r, hr, hkey, hlen⟩ := joinRow_isSome hix he hrow
  refine ⟨r, joined_iff.2 ⟨hl, e.2, hix.entries.subset (List.mem_map_of_mem he), hr⟩, ?_⟩
  rw [hkey]
  exact probeHit_iff hok (hls l hl) hlen e.2

/-- The index join agrees with the nested loop join if every joined pair binds each index column
to a number that compares equal with the right row's, and only if each pair binds them to what
compares equal. -/
theorem joinsAgree_spec (htab : s'.tabName = s.tabName) (hconds : s'.conds = s.conds)
    (hmeta : getIndexMeta (db.tabs s.tabName) s'.indexColNames = .ok ix)
    (hok : JoinOk (db.tabs s.tabName) lcols llen s.tabName ix s.conds joinConds)
    (hix : IndexOk db t s.tabName ix) (hls : ∀ l ∈ ls, l.length = llen) :
    ((∀ l r, Joined db t lcols s joinConds ls l r →
        KeyAgrees lcols s.tabName s.conds joinConds ix l r ∧
          KeyNumbers lcols s.tabName s.conds joinConds ix l) →
      JoinsAgree db t lcols llen s s' joinConds ls) ∧
    (JoinsAgree db t lcols llen s s' joinConds ls →
      ∀ l r, Joined db t lcols s joinConds ls l r →
        KeyAgrees lcols s.tabName s.conds joinConds ix l r) := by
  have hspec := fun l hl => probeRight_spec hok hix (hls l hl)
  choose! out hprobe hsub hall using hspec
  have hinlj : indexNestedLoopJoin db t lcols llen s' joinConds ls = .ok (ls.flatMap out) := by
    unfold indexNestedLoopJoin
    rw [htab, hconds, hmeta]
    show (do
      let rows ← ls.mapM (probeRight db t lcols llen s.tabName ix s.conds joinConds)
      pure rows.flatten) = _
    rw [mapM_ok hprobe]
    rfl
  -- the nested loop join by the entries of the index
  let full := fun l => (db.index (Db.indexId s.tabName ix)).filterMap (joinRow db t s.tabName
    (pairMatches (db.tabs s.tabName) s.tabName lcols s.conds joinConds l) l)
  have hnlj : (nestedLoopJoin lcols (tabCols (db.tabs s.tabName) s.tabName) joinConds ls
      ((seqScan db t s.tabName s.conds).map Prod.snd)).Perm (ls.flatMap full) :=
    List.Perm.flatMap_left ls fun l _ => nlj_row_perm hix
  constructor
  · intro h
    refine ⟨_, hinlj, ?_⟩
    refine (List.Perm.of_eq ?_).trans hnlj.symm
    refine List.flatMap_congr fun l hl => ?_
    by_cases hempty : full l = []
    · have hle := (hsub l hl).trans (filterMap_filter_sublist _ _)
      have hle : (out l).Sublist (full l) := hle
      rw [hempty, List.sublist_nil] at hle
      rw [hle, hempty]
    · obtain ⟨b, hb⟩ := List.exists_mem_of_ne_nil _ hempty
      obtain ⟨e, he, hrow⟩ := List.mem_filterMap.1 hb
      obtain ⟨r, hjoined, -⟩ := hit_of_joined hok hix hls hl he (by rw [hrow]; rfl)
      rw [hall l hl (h l r hjoined).2]
      show _ = full l
      refine (filterMap_filter_eq fun e he hsome => ?_)
      obtain ⟨r, hjoined, hiff⟩ := hit_of_joined hok hix hls hl he hsome
      exact hiff.2 (h l r hjoined).1
  · rintro ⟨rows, hrows, hperm⟩ l r hjoined
    rw [hinlj] at hrows
    cases hrows
    have hlen := (hperm.trans hnlj).length_eq
    have hle : ∀ l ∈ ls, (out l).length ≤ (full l).length := fun l hl =>
      ((hsub l hl).trans (filterMap_filter_sublist _ _)).length_le
    have heq := length_eq_of_flatMap hle hlen l hjoined.left
    have hfilter := (hsub l hjoined.left).length_le
    have hfull := (filterMap_filter_sublist
      (q := probeHit lcols s.tabName s.conds joinConds ix l) (joinRow db t s.tabName
        (pairMatches (db.tabs s.tabName) s.tabName lcols s.conds joinConds l) l)
      (db.index (Db.indexId s.tabName ix))).length_le
    obtain ⟨e, he, hrow⟩ := hjoined.entry hix
    have hsome : (joinRow db t s.tabName
        (pairMatches (db.tabs s.tabName) s.tabName lcols s.conds joinConds l) l e).isSome = true := by
      rw [joinRow, hrow]
      rfl
    have hhit := of_length_filterMap_filter (le_antisymm hfull ((le_of_eq heq.symm).trans hfilter)) e he hsome
    obtain ⟨r', hr', hkey, hlen'⟩ := joinRow_isSome hix he hsome
    rw [hrow] at hr'
    cases hr'
    rw [hkey] at hhit
    exact (probeHit_iff hok (hls l hjoined.left) hlen' e.2).1 hhit

end

/-! ## The plan -/

theorem makeJoinPlan_index {tabs : TabName → TabMeta} {left left' right : Plan} {s : ScanPlan}
    {joinConds conds : List Condition}
    (h : makeJoinPlan tabs left (.scan s) joinConds = .join .indexNestLoop left' right conds) :
    ∃ names, getJoinIndexCols (tabs s.tabName) s.tabName s.conds joinConds = some names ∧
      left' = left ∧ right = .scan { s with tag := .indexScan, indexColNames := names } ∧
        conds = joinConds := by
  unfold makeJoinPlan at h
  simp only at h
  split at h
  · next names hnames =>
    cases h
    exact ⟨names, hnames, rfl, rfl, rfl⟩
  · cases h

/-- The plan returns, and returns the rows of the nested loop join of the same children. -/
def Agrees (db : Db) (t : TxnId) (left : Plan) (s s' : ScanPlan) (joinConds : List Condition) : Prop :=
  ∃ rows rows', (Plan.join .indexNestLoop left (.scan s') joinConds).exec db t = .ok rows ∧
    (Plan.join .nestLoop left (.scan { s with tag := .seqScan }) joinConds).exec db t = .ok rows' ∧
    rows.Perm rows'

theorem agrees_iff {db : Db} {t : TxnId} {left : Plan} {s s' : ScanPlan} {joinConds : List Condition}
    {ls : List Bytes} (hleft : left.exec db t = .ok ls) : Agrees db t left s s' joinConds ↔
      JoinsAgree db t (left.cols db.tabs) (left.tupleLen db.tabs) s s' joinConds ls := by
  have hinlj : (Plan.join .indexNestLoop left (.scan s') joinConds).exec db t =
      indexNestedLoopJoin db t (left.cols db.tabs) (left.tupleLen db.tabs) s' joinConds ls := by
    rw [Plan.exec, hleft]
    rfl
  have hnlj : (Plan.join .nestLoop left (.scan { s with tag := .seqScan }) joinConds).exec db t =
      .ok (nestedLoopJoin (left.cols db.tabs) (tabCols (db.tabs s.tabName) s.tabName) joinConds ls
        ((seqScan db t s.tabName s.conds).map Prod.snd)) := by
    rw [Plan.exec, hleft]
    rfl
  unfold Agrees JoinsAgree
  rw [hinlj, hnlj]
  simp

/-- Where the planner joins through an index with one entry for each row, the index join returns
the rows of the nested loop join if every joined pair binds each index column to a number that
compares equal with the right row's, and only if each pair binds them to what compares equal. -/
theorem indexNestLoop_agrees_iff {db : Db} {t : TxnId} {left : Plan} {s s' : ScanPlan}
    {joinConds : List Condition} {ix : List ColMeta} {ls : List Bytes}
    (hplan : makeJoinPlan db.tabs left (.scan s) joinConds =
      .join .indexNestLoop left (.scan s') joinConds)
    (hmeta : getIndexMeta (db.tabs s.tabName) s'.indexColNames = .ok ix)
    (hleft : left.exec db t = .ok ls) (hls : ∀ l ∈ ls, l.length = left.tupleLen db.tabs)
    (hok : JoinOk (db.tabs s.tabName) (left.cols db.tabs) (left.tupleLen db.tabs) s.tabName ix
      s.conds joinConds)
    (hix : IndexOk db t s.tabName ix) :
    ((∀ l r, Joined db t (left.cols db.tabs) s joinConds ls l r →
        KeyAgrees (left.cols db.tabs) s.tabName s.conds joinConds ix l r ∧
          KeyNumbers (left.cols db.tabs) s.tabName s.conds joinConds ix l) →
      Agrees db t left s s' joinConds) ∧
    (Agrees db t left s s' joinConds →
      ∀ l r, Joined db t (left.cols db.tabs) s joinConds ls l r →
        KeyAgrees (left.cols db.tabs) s.tabName s.conds joinConds ix l r) := by
  obtain ⟨names, -, -, hs, -⟩ := makeJoinPlan_index hplan
  cases hs
  rw [agrees_iff hleft]
  exact joinsAgree_spec rfl rfl hmeta hok hix hls

/-! ## Three tables -/

def intCol (name : String) (offset : Nat) : ColMeta := ⟨name, .int, 4, offset⟩

/-- A table of one `INT` column `x`; an index on it. -/
def oneInt (indexes : List (List ColMeta)) (h : ∀ ix ∈ indexes, ∀ c ∈ ix, c ∈ [intCol "x" 0]) :
    TabMeta where
  cols := [intCol "x" 0]
  indexes := indexes
  layout := by decide
  indexed := h

/-- Two `INT` columns with an index on both. -/
def twoInts : TabMeta where
  cols := [intCol "x" 0, intCol "y" 4]
  indexes := [[intCol "x" 0, intCol "y" 4]]
  layout := by decide
  indexed := by decide

/-- Table `a` has no index, `b` one on its only column, `c` one on its two columns.  In column `x`, `a` has
1, 3, 2 and 1, `b` has 2, 1 and 4, and `c` has 1. -/
def threeTables : Db :=
  Db.boot
    (fun tab => if tab = "c" then twoInts
      else if tab = "b" then oneInt [[intCol "x" 0]] (by decide) else oneInt [] (by decide))
    (fun tab => if tab = "c" then ⟨2, 1⟩ else if tab = "b" then ⟨2, 3⟩ else ⟨2, 4⟩)
    (fun r => ⟨true, ⟨if r.tab = "c" then [1, 0, 0, 0, 2, 0, 0, 0]
      else if r.tab = "b" then
        match r.rid.slotNo with
        | 0 => [2, 0, 0, 0]
        | 1 => [1, 0, 0, 0]
        | _ => [4, 0, 0, 0]
      else
        match r.rid.slotNo with
        | 1 => [3, 0, 0, 0]
        | 2 => [2, 0, 0, 0]
        | _ => [1, 0, 0, 0], none⟩⟩)
    (fun i => if i.tab = "c" then [([1, 0, 0, 0, 2, 0, 0, 0], ⟨1, 0⟩)]
      else [([1, 0, 0, 0], ⟨1, 1⟩), ([2, 0, 0, 0], ⟨1, 0⟩), ([4, 0, 0, 0], ⟨1, 2⟩)])

theorem indexOk_of_entries {db : Db} {t : TxnId} {tab : TabName} {ix : List ColMeta} {es : IndexMap}
    (hes : db.index (Db.indexId tab ix) = es) (hd : ∀ c ∈ ix, Discrete c)
    (hsorted : es.Pairwise fun a b => ixCompare ix a.1 b.1 < 0)
    (hscan : (es.map Prod.snd).Perm (db.rmScan tab))
    (hkeys : ∀ e ∈ es, e.1.length = keyLen ix ∧ ∃ img, db.readRow t ⟨tab, e.2⟩ = some img ∧
      e.1 = Db.indexKey ix img.bytes ∧ img.bytes.length = (db.tabs tab).recordSize) :
    IndexOk db t tab ix := by
  subst hes
  refine ⟨⟨fun e he => ⟨(hkeys e he).1, keyNaNFree_of_discrete hd _⟩, hsorted⟩, hscan, fun e he img' hread' => ?_⟩
  obtain ⟨-, img, hread, hkey, hrec⟩ := hkeys e he
  rw [hread] at hread'
  cases hread'
  exact ⟨hkey, hrec⟩

/-- `a.x = tab.x`. -/
def onX (tab : TabName) : Condition := ⟨⟨"a", "x"⟩, .eq, none, ⟨tab, "x"⟩⟩

def scanOf (tab : TabName) : ScanPlan := ⟨.seqScan, tab, [], []⟩

/-- The join of `a` and `b` through the index of `b`. -/
theorem indexNestLoop_agrees_iff_b : Agrees threeTables 0 (.scan (scanOf "a")) (scanOf "b")
    ⟨.indexScan, "b", [], ["x"]⟩ [onX "b"] := by
  have hix : IndexOk threeTables 0 "b" [intCol "x" 0] := by
    refine indexOk_of_entries rfl (by decide) (by decide) (by decide) fun e he => ?_
    have he : e ∈ [([1, 0, 0, 0], ⟨1, 1⟩), ([2, 0, 0, 0], ⟨1, 0⟩), ([4, 0, 0, 0], ⟨1, 2⟩)] := he
    simp only [List.mem_cons, List.not_mem_nil, or_false] at he
    rcases he with rfl | rfl | rfl <;> exact ⟨rfl, _, rfl, rfl, rfl⟩
  have hok : JoinOk (threeTables.tabs "b") (tabCols (threeTables.tabs "a") "a") 4 "b"
      [intCol "x" 0] [] [onX "b"] := by
    refine ⟨⟨by decide, by decide⟩, by decide, by decide, by decide, by simp, by simp, ?_, ?_⟩
    · intro c hc
      rw [List.mem_singleton.1 hc]
      refine ⟨⟨intCol "x" 0, by decide, by decide, by decide, .inl ⟨intCol "x" 0, by decide, by decide⟩⟩,
        fun _ col _ => ⟨by decide, .inr ⟨by decide, intCol "x" 0, by decide⟩⟩⟩
    · intro c hc lcol hlcol
      rw [List.mem_singleton.1 hc] at hlcol ⊢
      have h : lcol = ⟨"a", "x"⟩ := (Option.some.inj hlcol).symm
      rw [h]
      exact ⟨intCol "x" 0, by decide, by decide⟩
  have hleft : (Plan.scan (scanOf "a")).exec threeTables 0 =
      .ok [[1, 0, 0, 0], [3, 0, 0, 0], [2, 0, 0, 0], [1, 0, 0, 0]] := rfl
  refine (indexNestLoop_agrees_iff (by decide) (by decide) hleft (by decide) hok hix).1 ?_
  rintro l r ⟨hl, hr, hjoin⟩
  have hr : r ∈ [[2, 0, 0, 0], [1, 0, 0, 0], [4, 0, 0, 0]] := hr
  constructor
  · intro c hc
    rw [List.mem_singleton.1 hc]
    simp only [List.mem_cons, List.not_mem_nil, or_false] at hr
    simp only [List.mem_cons, List.not_mem_nil, or_false] at hl
    rcases hl with rfl | rfl | rfl | rfl <;> rcases hr with rfl | rfl | rfl <;>
      first
        | exact ⟨_, rfl, by decide⟩
        | exact absurd hjoin (by decide)
  · intro c hc part _ hfloat
    rw [List.mem_singleton.1 hc] at hfloat
    cases hfloat

/-- The index of `c` has a column that nothing binds: the plan joins through it and returns no
row. -/
theorem not_agrees_unbound :
    makeJoinPlan threeTables.tabs (.scan (scanOf "a")) (.scan (scanOf "c")) [onX "c"] =
        .join .indexNestLoop (.scan (scanOf "a")) (.scan ⟨.indexScan, "c", [], ["x", "y"]⟩) [onX "c"] ∧
      IndexOk threeTables 0 "c" [intCol "x" 0, intCol "y" 4] ∧
      ¬ Agrees threeTables 0 (.scan (scanOf "a")) (scanOf "c") ⟨.indexScan, "c", [], ["x", "y"]⟩
        [onX "c"] := by
  refine ⟨by decide, indexOk_of_entries rfl (by decide) (List.pairwise_singleton _ _) (.refl _) fun e he => ?_, ?_⟩
  · rw [List.mem_singleton.1 he]
    exact ⟨rfl, _, rfl, rfl, rfl⟩
  rintro ⟨rows, rows', hrows, hrows', hperm⟩
  have h : rows = [] := (Except.ok.inj (show Except.ok [] = Except.ok rows from hrows)).symm
  have h' : rows' = [[1, 0, 0, 0, 1, 0, 0, 0, 2, 0, 0, 0], [1, 0, 0, 0, 1, 0, 0, 0, 2, 0, 0, 0]] :=
    (Except.ok.inj (show Except.ok [[1, 0, 0, 0, 1, 0, 0, 0, 2, 0, 0, 0], [1, 0, 0, 0, 1, 0, 0, 0, 2, 0, 0, 0]] =
      Except.ok rows' from hrows')).symm
  rw [h, h'] at hperm
  exact absurd hperm.length_eq (by decide)

end Rmdb.Query
