import Rmdb.Query.Where
import Rmdb.Row.Exec

/-!
# Constant propagation

A link and a bound column give a condition on the other column of the link (`Derives.sound`), if that column is
not wider than the bound one.  What the passes derive is traced with the columns the constants come from
(`steps`), and the result of a clause stays the same when each of these steps is narrow.
-/

namespace Rmdb.Query

open Rmdb.Txn
open Rmdb.Sql (SvValue Value InsertError convertSvValue initRaw Created)

/-! ## The steps of the passes -/

/-- A derived condition with the column its constant comes from. -/
structure Derivation where
  source : TabCol
  cond : Condition
deriving DecidableEq, Repr

/-- `pass`, with the sources. -/
def passSteps (conds : List Condition) : List Derivation :=
  conds.foldl (fun steps j =>
    conds.foldl (fun steps cc =>
      steps ++ ((derive conds (steps.map Derivation.cond) j cc).map fun d => ⟨cc.lhsCol, d⟩).toList) steps) []

/-- The steps of at most `n` passes. -/
def steps : Nat → List Condition → List Derivation
  | 0, _ => []
  | n + 1, conds => passSteps conds ++ steps n (conds ++ pass conds)

theorem passSteps_cond (conds : List Condition) : (passSteps conds).map Derivation.cond = pass conds := by
  unfold passSteps pass
  refine (List.foldl_hom (List.map Derivation.cond) fun acc j => ?_).symm
  refine List.foldl_hom (List.map Derivation.cond) fun acc cc => ?_
  rw [List.map_append]
  cases derive conds (acc.map Derivation.cond) j cc <;> rfl

theorem steps_of_pass_nil {conds : List Condition} (h : pass conds = []) : ∀ n, steps n conds = [] := by
  intro n
  induction n with
  | zero => rfl
  | succ n ih =>
      have hnil : passSteps conds = [] := by
        rw [← List.map_eq_nil_iff, passSteps_cond]
        exact h
      rw [steps, h, List.append_nil, ih, hnil]
      rfl

theorem propagate_eq : ∀ (n : Nat) (conds : List Condition),
    propagate n conds = conds ++ (steps n conds).map Derivation.cond := by
  intro n
  induction n with
  | zero =>
      intro conds
      rw [propagate, steps, List.map_nil, List.append_nil]
  | succ n ih =>
      intro conds
      rw [propagate]
      by_cases h : pass conds = []
      · rw [if_pos h, steps_of_pass_nil h, List.map_nil, List.append_nil]
      · rw [if_neg h, ih, steps, List.map_append, passSteps_cond, List.append_assoc]

/-- What a step is made of. -/
structure Derives (conds : List Condition) (s : Derivation) (j cc : Condition) : Prop where
  link : j ∈ conds
  bound : cc ∈ conds
  isLink : isLink j = true
  isBound : isBound cc = true
  source : s.source = cc.lhsCol
  dst : dstOf j cc = some s.cond.lhsCol
  cond : s.cond = { lhsCol := s.cond.lhsCol, op := .eq, rhsVal := cc.rhsVal }

theorem derive_spec {conds derived : List Condition} {j cc d : Condition} (hj : j ∈ conds) (hcc : cc ∈ conds)
    (h : derive conds derived j cc = some d) : Derives conds ⟨cc.lhsCol, d⟩ j cc := by
  unfold derive at h
  split at h
  · next hboth =>
    obtain ⟨hlink, hbound⟩ := Bool.and_eq_true_iff.1 hboth
    split at h
    · cases h
    · next dst hdst =>
      split at h
      · cases h
      · cases h
        exact ⟨hj, hcc, hlink, hbound, rfl, hdst, rfl⟩
  · cases h

theorem passSteps_spec {conds : List Condition} : ∀ s ∈ passSteps conds, ∃ j cc, Derives conds s j cc := by
  unfold passSteps
  refine List.foldlRecOn (motive := fun steps : List Derivation => ∀ s ∈ steps, ∃ j cc, Derives conds s j cc) conds _ ?_ ?_
  · intro s hs
    cases hs
  · intro steps hsteps j hj
    refine List.foldlRecOn (motive := fun steps : List Derivation => ∀ s ∈ steps, ∃ j cc, Derives conds s j cc) conds _ hsteps ?_
    intro steps hsteps cc hcc s hs
    rcases List.mem_append.1 hs with hs | hs
    · exact hsteps s hs
    · rw [Option.mem_toList, Option.map_eq_some_iff] at hs
      obtain ⟨d, hd, rfl⟩ := hs
      exact ⟨j, cc, derive_spec hj hcc hd⟩

/-! ## Equal bytes -/

theorem memcmp_le {m : Nat} : ∀ {n : Nat} {a b : Bytes}, m ≤ n → Index.memcmp n a b = 0 → Index.memcmp m a b = 0 := by
  induction m with
  | zero =>
      intro n a b _ _
      simp [Index.memcmp]
  | succ m ih =>
      intro n a b hle h
      obtain ⟨n, rfl⟩ : ∃ k, n = k + 1 := ⟨n - 1, by omega⟩
      cases a with
      | nil => simp [Index.memcmp]
      | cons x a =>
          cases b with
          | nil => simp [Index.memcmp]
          | cons y b =>
              simp only [Index.memcmp] at h ⊢
              split at h
              · cases h
              · next hxy =>
                split at h
                · cases h
                · next hyx =>
                  rw [if_neg hxy, if_neg hyx]
                  exact ih (by omega) h

theorem holds_eq_iff (cmp : Int) : CompOp.eq.holds cmp = true ↔ cmp = 0 := by
  simp [CompOp.holds]

/-- Columns found equal over `w` bytes are equal in the `c.len` bytes of a column that is not wider. -/
theorem take_eq_of_serCmp {c : ColMeta} {a b : Bytes} {w : Nat} (hw : Words c) (hd : Discrete c) (hle : c.len ≤ w)
    (ha : c.len ≤ a.length) (hb : c.len ≤ b.length) (h : serCmp a b w c.type .eq = true) :
    a.take c.len = b.take c.len := by
  apply bytes_eq_of_cmpBytes hw hd ha hb
  have hzero := (holds_eq_iff _).1 h
  cases htype : c.type with
  | int =>
      rw [htype] at hzero
      exact hzero
  | float => exact absurd htype hd
  | string =>
      rw [htype] at hzero
      exact memcmp_le hle hzero

theorem serCmp_of_take_eq {c : ColMeta} {a b : Bytes} (hw : Words c) (h : a.take c.len = b.take c.len) :
    serCmp a b c.len c.type .eq = true := by
  unfold serCmp
  rw [cmpBytes_congr hw h rfl, cmpBytes_self]
  rfl

/-! ## Rows -/

section

variable {tabs : TabName → Option TabMeta} {tables : List TabName} {store : TabName → List Bytes} {row : List Bytes}

theorem tabRow_mem : ∀ {tables : List TabName} {row : List Bytes} {tab : TabName} {b : Bytes},
    row ∈ choices store tables → tabRow tables row tab = some b → b ∈ store tab ∧ tab ∈ tables := by
  intro tables
  induction tables with
  | nil =>
      intro row tab b _ h
      simp [tabRow] at h
  | cons t tables ih =>
      intro row tab b hrow h
      obtain ⟨x, hx, hrest⟩ := List.mem_flatMap.1 hrow
      obtain ⟨row, hmem, rfl⟩ := List.mem_map.1 hrest
      rw [tabRow] at h
      by_cases htab : t = tab
      · rw [if_pos htab] at h
        cases h
        subst htab
        exact ⟨hx, List.mem_cons_self⟩
      · rw [if_neg htab] at h
        obtain ⟨hb, hin⟩ := ih hmem h
        exact ⟨hb, List.mem_cons_of_mem _ hin⟩

theorem tabRow_some : ∀ {tables : List TabName} {row : List Bytes} {tab : TabName},
    row ∈ choices store tables → tab ∈ tables → ∃ b, tabRow tables row tab = some b := by
  intro tables
  induction tables with
  | nil =>
      intro row tab _ h
      cases h
  | cons t tables ih =>
      intro row tab hrow h
      obtain ⟨x, _, hrest⟩ := List.mem_flatMap.1 hrow
      obtain ⟨row, hmem, rfl⟩ := List.mem_map.1 hrest
      rw [tabRow]
      by_cases htab : t = tab
      · exact ⟨x, if_pos htab⟩
      · rw [if_neg htab]
        rcases List.mem_cons.1 h with h | h
        · exact absurd h.symm htab
        · exact ih hmem h

theorem colLen_eq {c : TabCol} {col : ColMeta} (h : colOf tabs c = some col) : colLen tabs c = col.len := by
  rw [colLen, h]
  rfl

/-- An operand is the column of a table of the query, with its bytes in the record. -/
theorem operand_spec (hsized : Sized tabs store) (hrow : row ∈ choices store tables) {c : TabCol} {col : ColMeta}
    {a : Bytes} (h : operand tabs tables row c = some (col, a)) :
    colOf tabs c = some col ∧ col.len ≤ a.length ∧ c.tabName ∈ tables := by
  obtain ⟨b, hb, h⟩ := Option.bind_eq_some_iff.1 h
  obtain ⟨col', hcol, h⟩ := Option.map_eq_some_iff.1 h
  cases h
  obtain ⟨hstore, hin⟩ := tabRow_mem hrow hb
  obtain ⟨m, hm, hfind⟩ := Option.bind_eq_some_iff.1 hcol
  have hlen := hsized _ _ hm b hstore
  have hfit := m.fits (TabMeta.findCol_mem hfind)
  refine ⟨hcol, ?_, hin⟩
  rw [List.length_drop]
  omega

theorem operand_some (hrow : row ∈ choices store tables) {c : TabCol} {col : ColMeta} (hcol : colOf tabs c = some col)
    (hin : c.tabName ∈ tables) : ∃ a, operand tabs tables row c = some (col, a) := by
  obtain ⟨b, hb⟩ := tabRow_some hrow hin
  refine ⟨b.drop col.offset, ?_⟩
  rw [operand, hb, hcol]
  rfl

/-! ## One step -/

/-- A condition on columns without FLOAT, its literal at least as long as the column. -/
structure Fits (tabs : TabName → Option TabMeta) (c : Condition) (col : ColMeta) : Prop where
  found : colOf tabs c.lhsCol = some col
  words : Words col
  discrete : Discrete col
  literal : ∀ v, c.rhsVal = some v → col.len ≤ v.length
  column : c.rhsVal = none → ∃ rcol, colOf tabs c.rhsCol = some rcol ∧ Words rcol ∧ rcol.type = col.type

/-- The constant goes to a column that is not wider, and does not come from a table outside the query. -/
structure Derivation.Narrow (tabs : TabName → Option TabMeta) (tables : List TabName) (s : Derivation) : Prop where
  len : colLen tabs s.cond.lhsCol ≤ colLen tabs s.source
  table : s.cond.lhsCol.tabName ∈ tables → s.source.tabName ∈ tables

instance (s : Derivation) : Decidable (s.Narrow tabs tables) :=
  decidable_of_iff (colLen tabs s.cond.lhsCol ≤ colLen tabs s.source ∧
    (s.cond.lhsCol.tabName ∈ tables → s.source.tabName ∈ tables)) ⟨fun h => ⟨h.1, h.2⟩, fun h => ⟨h.len, h.table⟩⟩

/-- The columns of a step: that of its constant, and the other one of its link. -/
structure StepCols (tabs : TabName → Option TabMeta) (s : Derivation) (v : Bytes) (src dst : ColMeta) : Prop where
  source : colOf tabs s.source = some src
  target : colOf tabs s.cond.lhsCol = some dst
  type : dst.type = src.type
  words : Words dst
  discrete : Discrete dst
  literal : s.cond = { lhsCol := s.cond.lhsCol, op := .eq, rhsVal := some v }
  long : src.len ≤ v.length

theorem isLink_spec {j : Condition} (h : isLink j = true) : j.op = .eq ∧ j.rhsVal = none := by
  simp only [isLink, Bool.and_eq_true, decide_eq_true_eq, Option.isNone_iff_eq_none] at h
  exact h

theorem isBound_spec {cc : Condition} (h : isBound cc = true) : cc.op = .eq ∧ ∃ v, cc.rhsVal = some v := by
  simp only [isBound, Bool.and_eq_true, decide_eq_true_eq, Option.isSome_iff_exists] at h
  exact h

theorem dstOf_spec {j cc : Condition} {dst : TabCol} (h : dstOf j cc = some dst) :
    (j.lhsCol = cc.lhsCol ∧ j.rhsCol = dst) ∨ (j.rhsCol = cc.lhsCol ∧ j.lhsCol = dst) := by
  unfold dstOf at h
  split at h
  · next heq =>
    cases h
    exact .inl ⟨heq.symm, rfl⟩
  · split at h
    · next heq =>
      cases h
      exact .inr ⟨heq.symm, rfl⟩
    · cases h

/-- The columns of the steps of one pass. -/
theorem Derives.cols {conds : List Condition} {s : Derivation} {j cc : Condition} (h : Derives conds s j cc)
    (hfits : ∀ c ∈ conds, ∃ col, Fits tabs c col) : ∃ v src dst, cc.rhsVal = some v ∧ StepCols tabs s v src dst := by
  obtain ⟨_, v, hv⟩ := isBound_spec h.isBound
  obtain ⟨src, hsrc⟩ := hfits cc h.bound
  obtain ⟨lhs, hlhs⟩ := hfits j h.link
  obtain ⟨rhs, hrhs, hwords, htype⟩ := hlhs.column (isLink_spec h.isLink).2
  have hfound : colOf tabs s.source = some src := by
    rw [h.source]
    exact hsrc.found
  have hcond : s.cond = { lhsCol := s.cond.lhsCol, op := .eq, rhsVal := some v } := by
    rw [← hv]
    exact h.cond
  rcases dstOf_spec h.dst with ⟨hs, hd⟩ | ⟨hs, hd⟩
  · have hsame : src = lhs := by
      have := hsrc.found
      rw [← hs, hlhs.found] at this
      exact (Option.some.inj this).symm
    subst hsame
    have hdiscrete : Discrete rhs := by
      intro hfloat
      exact hlhs.discrete (htype.symm.trans hfloat)
    exact ⟨v, src, rhs, hv, hfound, hd ▸ hrhs, htype, hwords, hdiscrete, hcond, hsrc.literal v hv⟩
  · have hsame : src = rhs := by
      have := hsrc.found
      rw [← hs, hrhs] at this
      exact (Option.some.inj this).symm
    subst hsame
    exact ⟨v, src, lhs, hv, hfound, hd ▸ hlhs.found, htype.symm, hlhs.words, hlhs.discrete, hcond, hsrc.literal v hv⟩

/-- A derived condition fits if its column is not wider than the one its constant comes from. -/
theorem StepCols.fits {s : Derivation} {v : Bytes} {src dst : ColMeta} (h : StepCols tabs s v src dst)
    (hnarrow : s.Narrow tabs tables) : Fits tabs s.cond dst := by
  have hlen : dst.len ≤ src.len := by
    have := hnarrow.len
    rwa [colLen_eq h.target, colLen_eq h.source] at this
  have hval : s.cond.rhsVal = some v := by rw [h.literal]
  refine ⟨h.target, h.words, h.discrete, ?_, ?_⟩
  · intro v' hv'
    rw [hval] at hv'
    cases hv'
    exact Nat.le_trans hlen h.long
  · intro hnone
    rw [hval] at hnone
    cases hnone

/-- A record that passes `column = constant` begins with the constant. -/
theorem passes_bound {c : Condition} {col : ColMeta} {a v : Bytes} (hop : operand tabs tables row c.lhsCol = some (col, a))
    (heq : c.op = .eq) (hv : c.rhsVal = some v) :
    passes tabs tables row c = serCmp a v col.len col.type .eq := by
  simp only [passes, hop, hv, heq]

theorem passes_link {c : Condition} {col rcol : ColMeta} {a b : Bytes}
    (hlhs : operand tabs tables row c.lhsCol = some (col, a)) (hrhs : operand tabs tables row c.rhsCol = some (rcol, b))
    (heq : c.op = .eq) (hv : c.rhsVal = none) : passes tabs tables row c = serCmp a b col.len col.type .eq := by
  simp only [passes, hlhs, hrhs, hv, heq]

/-- Both sides of a link begin with the same bytes, whichever of them the plan has on the left. -/
theorem link_take {side : Condition → Condition} (hside : Sides side) {j : Condition} {lhs rhs : ColMeta} {a b : Bytes}
    (hlhs : operand tabs tables row j.lhsCol = some (lhs, a)) (hrhs : operand tabs tables row j.rhsCol = some (rhs, b))
    (hlink : isLink j = true) (htype : rhs.type = lhs.type) {c : ColMeta} (hc : c.type = lhs.type) (hw : Words c)
    (hd : Discrete c) (hl : c.len ≤ lhs.len) (hr : c.len ≤ rhs.len) (ha : c.len ≤ a.length) (hb : c.len ≤ b.length)
    (h : passes tabs tables row (side j) = true) : a.take c.len = b.take c.len := by
  obtain ⟨heq, hnone⟩ := isLink_spec hlink
  rcases hside j with hj | ⟨_, hj⟩
  · rw [hj, passes_link hlhs hrhs heq hnone, ← hc] at h
    exact take_eq_of_serCmp hw hd hl ha hb h
  · rw [hj, passes_link (c := j.swap) hrhs hlhs (by rw [Condition.swap, heq]; rfl) hnone, htype, ← hc] at h
    exact (take_eq_of_serCmp hw hd hr hb ha h).symm

theorem side_literal {side : Condition → Condition} (hside : Sides side) {c : Condition} {v : Bytes}
    (h : c.rhsVal = some v) : side c = c := by
  rcases hside c with hc | ⟨hnone, _⟩
  · exact hc
  · rw [h] at hnone
    cases hnone

/-- A record that passes the link and the bound column passes the derived condition. -/
theorem Derives.sound {conds : List Condition} {s : Derivation} {j cc : Condition} (h : Derives conds s j cc)
    (hfits : ∀ c ∈ conds, ∃ col, Fits tabs c col) (hnarrow : s.Narrow tabs tables) (hsized : Sized tabs store)
    (hrow : row ∈ choices store tables) {side : Condition → Condition} (hside : Sides side)
    (hj : passes tabs tables row (side j) = true) (hcc : passes tabs tables row (side cc) = true) :
    passes tabs tables row (side s.cond) = true := by
  obtain ⟨v, src, dst, hv, hcols⟩ := h.cols hfits
  have hval : s.cond.rhsVal = some v := by rw [hcols.literal]
  have heq : s.cond.op = .eq := by rw [hcols.literal]
  rw [side_literal hside hval]
  rw [side_literal hside hv] at hcc
  by_cases hin : s.cond.lhsCol.tabName ∈ tables
  · have hlen : dst.len ≤ src.len := by
      have := hnarrow.len
      rwa [colLen_eq hcols.target, colLen_eq hcols.source] at this
    obtain ⟨a, ha⟩ := operand_some hrow hcols.source (hnarrow.table hin)
    obtain ⟨b, hb⟩ := operand_some hrow hcols.target hin
    have hla := (operand_spec hsized hrow ha).2.1
    have hlb := (operand_spec hsized hrow hb).2.1
    -- the source begins with the constant over its own length, the target with the source over the shorter one
    have hconst : a.take dst.len = v.take dst.len := by
      rw [passes_bound (h.source ▸ ha) (isBound_spec h.isBound).1 hv, ← hcols.type] at hcc
      exact take_eq_of_serCmp hcols.words hcols.discrete hlen (by omega) (Nat.le_trans hlen hcols.long) hcc
    have hlink : a.take dst.len = b.take dst.len := by
      rcases dstOf_spec h.dst with ⟨hs, hd⟩ | ⟨hs, hd⟩
      · exact link_take hside (by rw [hs, ← h.source]; exact ha) (by rw [hd]; exact hb) h.isLink hcols.type
          hcols.type hcols.words hcols.discrete hlen (Nat.le_refl _) (by omega) hlb hj
      · exact (link_take hside (by rw [hd]; exact hb) (by rw [hs, ← h.source]; exact ha) h.isLink hcols.type.symm
          rfl hcols.words hcols.discrete (Nat.le_refl _) hlen hlb (by omega) hj).symm
    rw [passes_bound hb heq hval]
    exact serCmp_of_take_eq hcols.words (hlink.symm.trans hconst)
  · have hnone : operand tabs tables row s.cond.lhsCol = none := by
      cases hop : operand tabs tables row s.cond.lhsCol with
      | none => rfl
      | some p => exact absurd (operand_spec hsized hrow hop).2.2 hin
    simp only [passes, hnone]

/-! ## Runs -/

theorem pass_fits {conds : List Condition} (hfits : ∀ c ∈ conds, ∃ col, Fits tabs c col)
    (hnarrow : ∀ s ∈ passSteps conds, s.Narrow tabs tables) : ∀ c ∈ conds ++ pass conds, ∃ col, Fits tabs c col := by
  intro c hc
  rcases List.mem_append.1 hc with hc | hc
  · exact hfits c hc
  · rw [← passSteps_cond] at hc
    obtain ⟨s, hs, rfl⟩ := List.mem_map.1 hc
    obtain ⟨j, cc, hder⟩ := passSteps_spec s hs
    obtain ⟨v, src, dst, _, hcols⟩ := hder.cols hfits
    exact ⟨dst, hcols.fits (hnarrow s hs)⟩

theorem pass_sound {conds : List Condition} (hfits : ∀ c ∈ conds, ∃ col, Fits tabs c col)
    (hnarrow : ∀ s ∈ passSteps conds, s.Narrow tabs tables) (hsized : Sized tabs store)
    (hrow : row ∈ choices store tables) {side : Condition → Condition} (hside : Sides side)
    (h : ∀ c ∈ conds, passes tabs tables row (side c) = true) :
    ∀ c ∈ conds ++ pass conds, passes tabs tables row (side c) = true := by
  intro c hc
  rcases List.mem_append.1 hc with hc | hc
  · exact h c hc
  · rw [← passSteps_cond] at hc
    obtain ⟨s, hs, rfl⟩ := List.mem_map.1 hc
    obtain ⟨j, cc, hder⟩ := passSteps_spec s hs
    exact hder.sound hfits (hnarrow s hs) hsized hrow hside (h j hder.link) (h cc hder.bound)

/-- The derived conditions fit, and a record that passes the clause passes them. -/
theorem steps_sound : ∀ (n : Nat) {conds : List Condition}, (∀ c ∈ conds, ∃ col, Fits tabs c col) →
    (∀ s ∈ steps n conds, s.Narrow tabs tables) →
    (∀ s ∈ steps n conds, ∃ col, Fits tabs s.cond col) ∧
      ∀ (store : TabName → List Bytes) (row : List Bytes) (side : Condition → Condition), Sized tabs store →
        row ∈ choices store tables → Sides side → (∀ c ∈ conds, passes tabs tables row (side c) = true) →
          ∀ s ∈ steps n conds, passes tabs tables row (side s.cond) = true := by
  intro n
  induction n with
  | zero =>
      intro conds _ _
      refine ⟨fun s hs => ?_, fun store row side _ _ _ _ s hs => ?_⟩
      · cases hs
      · cases hs
  | succ n ih =>
      intro conds hfits hnarrow
      have hfirst : ∀ s ∈ passSteps conds, s.Narrow tabs tables := fun s hs =>
        hnarrow s (List.mem_append_left _ hs)
      have hmem : ∀ s ∈ passSteps conds, s.cond ∈ conds ++ pass conds := by
        intro s hs
        rw [← passSteps_cond]
        exact List.mem_append_right _ (List.mem_map_of_mem hs)
      obtain ⟨hrest, hsound⟩ := ih (pass_fits hfits hfirst) fun s hs => hnarrow s (List.mem_append_right _ hs)
      constructor
      · intro s hs
        rcases List.mem_append.1 hs with hs | hs
        · exact pass_fits hfits hfirst _ (hmem s hs)
        · exact hrest s hs
      · intro store row side hsized hrow hside h s hs
        have hpass := pass_sound hfits hfirst hsized hrow hside h
        rcases List.mem_append.1 hs with hs | hs
        · exact hpass _ (hmem s hs)
        · exact hsound store row side hsized hrow hside hpass s hs

/-- Narrow steps preserve the clause. -/
theorem preserves_of_narrow {n : Nat} {conds : List Condition} (hfits : ∀ c ∈ conds, ∃ col, Fits tabs c col)
    (hnarrow : ∀ s ∈ steps n conds, s.Narrow tabs tables) :
    Preserves tabs tables conds (propagate n conds) := by
  obtain ⟨hderived, hsound⟩ := steps_sound n hfits hnarrow
  rw [propagate_eq]
  constructor
  · intro side hside store hsized
    refine List.filter_congr fun row hrow => ?_
    rw [List.all_append, Bool.and_eq_left_iff_imp, List.all_eq_true, List.all_eq_true]
    intro h d hd
    obtain ⟨s, hs, rfl⟩ := List.mem_map.1 hd
    exact hsound store row side hsized hrow hside h s hs
  · intro d hd v hv
    rw [List.drop_left] at hd
    obtain ⟨s, hs, rfl⟩ := List.mem_map.1 hd
    obtain ⟨col, hcol⟩ := hderived s hs
    rw [colLen_eq hcol.found]
    exact hcol.literal v hv

/-! ## The clause -/

theorem getCol_spec {c : TabCol} {col : ColMeta} (h : getCol tabs c = .ok col) : colOf tabs c = some col := by
  unfold getCol getTable at h
  unfold colOf
  cases htab : tabs c.tabName with
  | none =>
      rw [htab] at h
      cases h
  | some m =>
      simp only [htab, Except.bind, Option.bind_some] at h ⊢
      cases hcol : m.findCol c.colName with
      | none =>
          simp only [hcol] at h
          cases h
      | some found =>
          simp only [hcol] at h
          cases h
          rfl

theorem words_of_created (hcreated : ∀ tab m, tabs tab = some m → Created m) {c : TabCol} {col : ColMeta}
    (h : colOf tabs c = some col) : Words col := by
  obtain ⟨m, hm, hfind⟩ := Option.bind_eq_some_iff.1 h
  exact (hcreated _ m hm).words col (TabMeta.findCol_mem hfind)

/-- The raw buffer of a literal is as long as a column of its type. -/
theorem initRaw_length {v : Value} {col : ColMeta} {raw : Bytes} (hw : Words col) (htype : col.type = v.type)
    (h : initRaw v col.len = .ok raw) : raw.length = col.len := by
  unfold initRaw at h
  cases v with
  | int v =>
      cases h
      rw [hw (by rw [htype]; exact ColType.noConfusion)]
      rfl
  | float v =>
      cases h
      rw [hw (by rw [htype]; exact ColType.noConfusion)]
      rfl
  | str s =>
      dsimp only at h
      split at h
      · cases h
      · cases h
        rw [List.length_append, List.length_replicate]
        omega

/-- What `check_clause` leaves: a literal is as long as its column, two columns have one type. -/
structure Checked (tabs : TabName → Option TabMeta) (c : Condition) (col : ColMeta) : Prop where
  found : colOf tabs c.lhsCol = some col
  literal : ∀ v, c.rhsVal = some v → v.length = col.len
  column : c.rhsVal = none → ∃ rcol, colOf tabs c.rhsCol = some rcol ∧ rcol.type = col.type

theorem bind_eq_ok {ε α β : Type} {x : Except ε α} {f : α → Except ε β} {b : β} (h : x.bind f = .ok b) :
    ∃ a, x = .ok a ∧ f a = .ok b := by
  cases x with
  | error e => cases h
  | ok a => exact ⟨a, rfl, h⟩

theorem mapError_eq_ok {ε δ α : Type} {x : Except ε α} {f : ε → δ} {a : α} (h : x.mapError f = .ok a) : x = .ok a := by
  cases x with
  | error e => cases h
  | ok a' =>
      cases h
      rfl

theorem checkCond_spec (hcreated : ∀ tab m, tabs tab = some m → Created m) {allCols : Cols} {c : Comparison Value}
    {c' : Condition} (h : checkCond tabs allCols c = .ok c') : ∃ col, Checked tabs c' col := by
  obtain ⟨lhsCol, _, h⟩ := bind_eq_ok h
  cases hrhs : c.rhs with
  | inl v =>
      rw [hrhs] at h
      obtain ⟨lhs, hlhs, h⟩ := bind_eq_ok h
      obtain ⟨raw, hraw, h⟩ := bind_eq_ok h
      split at h
      · cases h
      · next htype =>
        cases h
        refine ⟨lhs, getCol_spec hlhs, ?_, fun hnone => absurd hnone (Option.some_ne_none raw)⟩
        intro v' hv'
        cases hv'
        exact initRaw_length (words_of_created hcreated (getCol_spec hlhs)) (not_not.1 htype) (mapError_eq_ok hraw)
  | inr rhs =>
      rw [hrhs] at h
      obtain ⟨rhsCol, _, h⟩ := bind_eq_ok h
      obtain ⟨lhs, hlhs, h⟩ := bind_eq_ok h
      obtain ⟨rcol, hrcol, h⟩ := bind_eq_ok h
      split at h
      · cases h
      · next htype =>
        cases h
        refine ⟨lhs, getCol_spec hlhs, ?_, fun _ => ⟨rcol, getCol_spec hrcol, (not_not.1 htype).symm⟩⟩
        intro v hv
        cases hv

theorem mapM_ok_mem {ε α β : Type} {f : α → Except ε β} : ∀ {xs : List α} {ys : List β}, xs.mapM f = .ok ys →
    ∀ y ∈ ys, ∃ x ∈ xs, f x = .ok y := by
  intro xs
  induction xs with
  | nil =>
      intro ys h y hy
      rw [List.mapM_nil] at h
      cases h
      cases hy
  | cons x xs ih =>
      intro ys h y hy
      rw [List.mapM_cons] at h
      obtain ⟨a, ha, h⟩ := bind_eq_ok h
      obtain ⟨rest, hrest, h⟩ := bind_eq_ok h
      cases h
      rcases List.mem_cons.1 hy with rfl | hy
      · exact ⟨x, List.mem_cons_self, ha⟩
      · obtain ⟨x', hx', heq⟩ := ih hrest y hy
        exact ⟨x', List.mem_cons_of_mem _ hx', heq⟩

theorem whereConds_spec (hcreated : ∀ tab m, tabs tab = some m → Created m) {alias2real : TabName → Option TabName}
    {clause : List (Comparison SvValue)} {conds : List Condition}
    (h : whereConds tabs alias2real tables clause = .ok conds) : ∀ c ∈ conds, ∃ col, Checked tabs c col := by
  intro c hc
  obtain ⟨_, _, h⟩ := bind_eq_ok h
  obtain ⟨_, _, h⟩ := bind_eq_ok h
  obtain ⟨_, _, hcheck⟩ := mapM_ok_mem h c hc
  exact checkCond_spec hcreated hcheck

theorem Checked.fits (hcreated : ∀ tab m, tabs tab = some m → Created m) {c : Condition} {col : ColMeta}
    (h : Checked tabs c col) (hd : Discrete col) : Fits tabs c col := by
  refine ⟨h.found, words_of_created hcreated h.found, hd, fun v hv => Nat.le_of_eq (h.literal v hv).symm, ?_⟩
  intro hnone
  obtain ⟨rcol, hrcol, htype⟩ := h.column hnone
  exact ⟨rcol, hrcol, words_of_created hcreated hrcol, htype⟩

/-- In the first pass a buffer is as long as the column its constant comes from. -/
theorem narrow_of_inBuffer {conds : List Condition} (hchecked : ∀ c ∈ conds, ∃ col, Checked tabs c col)
    (h : ∀ d ∈ pass conds, InBuffer tabs d) :
    ∀ s ∈ passSteps conds, colLen tabs s.cond.lhsCol ≤ colLen tabs s.source := by
  intro s hs
  obtain ⟨j, cc, hder⟩ := passSteps_spec s hs
  obtain ⟨_, v, hv⟩ := isBound_spec hder.isBound
  obtain ⟨src, hsrc⟩ := hchecked cc hder.bound
  have hval : s.cond.rhsVal = some v := by
    rw [← hv, hder.cond]
  have hmem : s.cond ∈ pass conds := by
    rw [← passSteps_cond]
    exact List.mem_map_of_mem hs
  calc colLen tabs s.cond.lhsCol ≤ v.length := h _ hmem v hval
    _ = src.len := hsrc.literal v hv
    _ = colLen tabs cc.lhsCol := (colLen_eq hsrc.found).symm
    _ = colLen tabs s.source := by rw [hder.source]

/-- The conditions `do_analyze` derives preserve a clause over INT and CHAR columns when each constant goes to a
column that is not wider.  In the first pass it is only then. -/
theorem propagation_preserves {alias2real : TabName → Option TabName} {clause : List (Comparison SvValue)}
    {conds : List Condition} (hcreated : ∀ tab m, tabs tab = some m → Created m)
    (h : whereConds tabs alias2real tables clause = .ok conds)
    (hdiscrete : ∀ c ∈ conds, ∀ col, colOf tabs c.lhsCol = some col → Discrete col) :
    ∃ conds', analyzeWhere tabs alias2real tables false clause = .ok conds' ∧
      ((∀ s ∈ steps 3 conds, s.Narrow tabs tables) → Preserves tabs tables conds conds') ∧
      (Preserves tabs tables conds conds' →
        ∀ s ∈ passSteps conds, colLen tabs s.cond.lhsCol ≤ colLen tabs s.source) := by
  have hchecked := whereConds_spec hcreated h
  refine ⟨propagate 3 conds, ?_, ?_, ?_⟩
  · rw [analyzeWhere, h]
    rfl
  · refine preserves_of_narrow fun c hc => ?_
    obtain ⟨col, hcol⟩ := hchecked c hc
    exact ⟨col, hcol.fits hcreated (hdiscrete c hc col hcol.found)⟩
  · intro hpres
    apply narrow_of_inBuffer hchecked
    intro d hd
    apply hpres.inBuffer
    rw [propagate_eq, List.drop_left]
    rw [← passSteps_cond] at hd
    obtain ⟨s, hs, rfl⟩ := List.mem_map.1 hd
    exact List.mem_map_of_mem (List.mem_append_left _ hs)

end

def wideNarrowCols : List ColMeta := [⟨"a", .string, 2, 0⟩, ⟨"b", .string, 1, 2⟩]

theorem wideNarrow_layout : ColsAt 0 wideNarrowCols := by decide

theorem wideNarrow_indexed : ∀ ix ∈ ([] : List (List ColMeta)), ∀ c ∈ ix, c ∈ wideNarrowCols := by simp

/-- `t(a CHAR(2), b CHAR(1))`. -/
def wideNarrow : TabMeta := ⟨wideNarrowCols, [], wideNarrow_layout, wideNarrow_indexed⟩

def onlyT (tab : TabName) : Option TabMeta := if tab = "t" then some wideNarrow else none

theorem onlyT_created (tab : TabName) (m : TabMeta) (h : onlyT tab = some m) : Created m := by
  unfold onlyT at h
  split at h
  · cases h
    refine ⟨List.cons_ne_nil _ _, fun c hc hne => ?_⟩
    rcases List.mem_cons.1 hc with rfl | hc
    · exact absurd rfl hne
    · rw [List.mem_singleton.1 hc] at hne
      exact absurd rfl hne
  · cases h

theorem onlyT_discrete {c : TabCol} {col : ColMeta} (h : colOf onlyT c = some col) : Discrete col := by
  obtain ⟨m, hm, hfind⟩ := Option.bind_eq_some_iff.1 h
  unfold onlyT at hm
  split at hm
  · cases hm
    have hmem := TabMeta.findCol_mem hfind
    rcases List.mem_cons.1 hmem with rfl | hmem
    · exact ColType.noConfusion
    · rw [List.mem_singleton.1 hmem]
      exact ColType.noConfusion
  · cases hm

/-- `a = b AND a = 'x'`. -/
def wideBound : List (Comparison SvValue) := [⟨⟨"", "a"⟩, .eq, .inr ⟨"t", "b"⟩⟩, ⟨⟨"t", "a"⟩, .eq, .inl (.str [120])⟩]

/-- `a = b AND b = 'x'`. -/
def narrowBound : List (Comparison SvValue) := [⟨⟨"", "a"⟩, .eq, .inr ⟨"t", "b"⟩⟩, ⟨⟨"t", "b"⟩, .eq, .inl (.str [120])⟩]

/-- `a = b AND a = 'x'` with `a CHAR(2)` and `b CHAR(1)`. -/
theorem wideBound_preserved : ∃ conds', analyzeWhere onlyT (fun _ => none) ["t"] false wideBound = .ok conds' ∧
    Preserves onlyT ["t"] [⟨⟨"t", "a"⟩, .eq, none, ⟨"t", "b"⟩⟩, ⟨⟨"t", "a"⟩, .eq, some [120, 0], ⟨"", ""⟩⟩] conds' := by
  have hwhere : whereConds onlyT (fun _ => none) ["t"] wideBound =
      .ok [⟨⟨"t", "a"⟩, .eq, none, ⟨"t", "b"⟩⟩, ⟨⟨"t", "a"⟩, .eq, some [120, 0], ⟨"", ""⟩⟩] := by rfl
  obtain ⟨conds', hconds, hpres, _⟩ := propagation_preserves onlyT_created hwhere fun _ _ _ hcol => onlyT_discrete hcol
  exact ⟨conds', hconds, hpres (by decide)⟩

/-- `a = b AND b = 'x'`: the byte for `b CHAR(1)` is compared with the two of `a CHAR(2)`. -/
theorem narrowBound_overread : ∃ conds conds', whereConds onlyT (fun _ => none) ["t"] narrowBound = .ok conds ∧
    analyzeWhere onlyT (fun _ => none) ["t"] false narrowBound = .ok conds' ∧ ¬ Preserves onlyT ["t"] conds conds' := by
  refine ⟨_, _, rfl, rfl, fun h => ?_⟩
  have hread := h.inBuffer ⟨⟨"t", "a"⟩, .eq, some [120], ⟨"", ""⟩⟩ (by decide) [120] rfl
  exact absurd hread (by decide)

end Rmdb.Query
