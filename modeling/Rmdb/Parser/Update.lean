import Rmdb.Parser.Agree
import Rmdb.Exec.Write

/-!
# The clauses of an UPDATE

What `do_analyze` makes of a SET clause, and `apply_set_value` of that.  A sign may stand in the literal or in the
clause: clauses that are the same but for that do the same to a row (`applySets_signed`), if the two columns of a
clause are of one type.  For an integer and a column of type FLOAT this needs that the conversion keeps the sign
(`SignKept`), as it does for every integer but the least.
-/

namespace Rmdb.Parser

open Rmdb.Sql (SvValue Value InsertError convertSvValue initRaw)
open Rmdb.Txn (Bytes TabMeta ColMeta applySetValue applySets fneg)

/-- `int_val` and `float_val` share their bits; those of a text are not set. -/
def valueWord : Value → BitVec 32
  | .int v => v
  | .float v => v
  | .str _ => 0

section
variable (name : Bytes → String)

/-- A clause of the loop of `do_analyze`; `name` reads a name as a string. -/
def analyzeSet (tab : TabMeta) (s : SetClause) : Except InsertError Rmdb.Txn.SetClause :=
  (convertSvValue s.val).bind fun v =>
    match tab.findCol (name s.colName) with
    | none => .error (.columnNotFound (name s.colName))
    | some col =>
      if col.type ≠ (v.promote col.type).type then .error (.incompatibleType col.type (v.promote col.type).type)
      else (initRaw (v.promote col.type) col.len).map fun raw =>
        { lhs := name s.colName
          isArith := s.isArith
          rhsCol := name s.rhsCol
          arithNeg := s.arithNeg
          intVal := valueWord (v.promote col.type)
          floatVal := valueWord (v.promote col.type)
          raw := raw }

variable {name} {tab : TabMeta} {s s' : SetClause} {c c' : Rmdb.Txn.SetClause} {col : ColMeta}

/-- What is checked of a clause, and what it becomes. -/
theorem analyzeSet_eq_ok : analyzeSet name tab s = .ok c ↔
    ∃ v col raw, convertSvValue s.val = .ok v ∧ tab.findCol (name s.colName) = some col ∧
      col.type = (v.promote col.type).type ∧ initRaw (v.promote col.type) col.len = .ok raw ∧
      c = ⟨name s.colName, s.isArith, name s.rhsCol, s.arithNeg, valueWord (v.promote col.type), valueWord (v.promote col.type),
        raw⟩ := by
  unfold analyzeSet
  constructor
  · intro h
    cases hv : convertSvValue s.val with
    | error e =>
        rw [hv] at h
        cases h
    | ok v =>
        rw [hv] at h
        dsimp only [Except.bind] at h
        cases hcol : tab.findCol (name s.colName) with
        | none =>
            rw [hcol] at h
            cases h
        | some col =>
            rw [hcol] at h
            dsimp only at h
            split at h
            · cases h
            · next htype =>
                cases hraw : initRaw (v.promote col.type) col.len with
                | error e =>
                    rw [hraw] at h
                    cases h
                | ok raw =>
                    rw [hraw] at h
                    exact ⟨v, col, raw, rfl, rfl, not_not.1 htype, hraw, (Except.ok.inj h).symm⟩
  · rintro ⟨v, col, raw, hv, hcol, htype, hraw, rfl⟩
    rw [hv]
    dsimp only [Except.bind]
    rw [hcol]
    dsimp only
    rw [if_neg (not_not.2 htype), hraw]
    rfl

theorem promote_int_type (i : BitVec 32) (t : Rmdb.Txn.ColType) :
    ((Value.int i).promote t).type = if t = .float then .float else .int := by
  show (if t = .float then Value.float _ else Value.int i).type = _
  split <;> rfl

theorem initRaw_number {v : Value} (hv : v.type ≠ .string) (len : Nat) : ∃ raw, initRaw v len = .ok raw := by
  cases v with
  | int i => exact ⟨_, rfl⟩
  | float f => exact ⟨_, rfl⟩
  | str t => exact absurd rfl hv

theorem convert_negLit {x : SvValue} {v : Value} (hv : convertSvValue x = .ok v) :
    ∃ w, convertSvValue (negLit x) = .ok w ∧ ∀ t len, (w.promote t).type = (v.promote t).type ∧
      ∀ raw, initRaw (v.promote t) len = .ok raw → ∃ raw', initRaw (w.promote t) len = .ok raw' := by
  cases x with
  | int i =>
      obtain rfl := Except.ok.inj hv
      refine ⟨.int (-i), rfl, fun t len => ?_⟩
      rw [promote_int_type, promote_int_type]
      refine ⟨rfl, fun _ _ => initRaw_number ?_ len⟩
      rw [promote_int_type]
      split <;> decide
  | float f =>
      obtain rfl := Except.ok.inj hv
      exact ⟨.float (fneg f), rfl, fun _ _ => ⟨rfl, fun _ _ => ⟨_, rfl⟩⟩⟩
  | str t => exact ⟨v, hv, fun _ _ => ⟨rfl, fun raw h => ⟨raw, h⟩⟩⟩
  | bool b => cases hv

/-- The conversion of an integer keeps its sign. -/
def SignKept (v : BitVec 32) : Prop :=
  valueWord ((Value.int (-v)).promote .float) = fneg (valueWord ((Value.int v).promote .float))

/-- The columns of a clause are of one type, and its literal keeps its sign. -/
structure SetOk (name : Bytes → String) (tab : TabMeta) (s : SetClause) : Prop where
  type : ∀ col rcol, tab.findCol (name s.colName) = some col → tab.findCol (name s.rhsCol) = some rcol → rcol.type = col.type
  sign : ∀ v col, s.val = .int v → tab.findCol (name s.colName) = some col → col.type = .float → SignKept v

theorem applySetValue_signed (hok : SetOk name tab s) (h : analyzeSet name tab s = .ok c)
    (h' : analyzeSet name tab s.signed = .ok c') (hcol : tab.findCol (name s.colName) = some col) (base dest : Bytes) :
    applySetValue tab base dest c' col = applySetValue tab base dest c col := by
  unfold SetClause.signed at h'
  split at h'
  · next hneg =>
      obtain ⟨harith, hneg⟩ := Bool.and_eq_true_iff.1 hneg
      obtain ⟨v, col1, raw, hv, hcol1, htype, -, rfl⟩ := analyzeSet_eq_ok.1 h
      obtain ⟨v', col2, raw', hv', hcol2, -, -, rfl⟩ := analyzeSet_eq_ok.1 h'
      obtain rfl := Option.some.inj (hcol.symm.trans hcol1)
      obtain rfl := Option.some.inj (hcol.symm.trans hcol2)
      unfold applySetValue
      simp only [harith, hneg, Bool.not_true, Bool.false_eq_true, if_false, if_true]
      cases hrcol : tab.findCol (name s.rhsCol) with
      | none => rfl
      | some rcol =>
          have hsame := hok.type col rcol hcol hrcol
          dsimp only
          rw [hsame]
          cases hval : s.val with
          | int i =>
              rw [hval] at hv hv'
              obtain rfl := Except.ok.inj hv
              obtain rfl := Except.ok.inj hv'
              cases hct : col.type with
              | float =>
                  have hkept : valueWord ((Value.int (-i)).promote .float) = fneg (valueWord ((Value.int i).promote .float)) :=
                    hok.sign i col hval hcol hct
                  rw [if_pos rfl, if_pos rfl, hkept]
              | int =>
                  rw [if_neg (by decide), if_neg (by decide)]
                  rfl
              | string =>
                  rw [hct] at htype
                  cases htype
          | float f =>
              rw [hval] at hv hv'
              obtain rfl := Except.ok.inj hv
              obtain rfl := Except.ok.inj hv'
              have hct : col.type = .float := htype
              rw [hct, if_pos rfl, if_pos rfl]
              rfl
          | str t =>
              rw [hval] at hv hv'
              obtain rfl := Except.ok.inj hv
              obtain rfl := Except.ok.inj hv'
              have hct : col.type = .string := htype
              have hzero : -valueWord ((Value.str t).promote .string) = valueWord ((Value.str t).promote .string) := by
                show -(0 : BitVec 32) = 0
                decide
              rw [hct, if_neg (by decide), if_neg (by decide), hzero]
          | bool b =>
              rw [hval] at hv
              cases hv
  · rw [h] at h'
    rw [Except.ok.inj h']

/-- What is checked of a clause does not look at the sign. -/
theorem analyzeSet_signed (h : analyzeSet name tab s = .ok c) : ∃ c', analyzeSet name tab s.signed = .ok c' := by
  unfold SetClause.signed
  split
  · obtain ⟨v, col, raw, hv, hcol, htype, hraw, -⟩ := analyzeSet_eq_ok.1 h
    obtain ⟨w, hw, hsame⟩ := convert_negLit hv
    obtain ⟨htype', hraw'⟩ := hsame col.type col.len
    obtain ⟨raw', hraw'⟩ := hraw' raw hraw
    exact ⟨_, analyzeSet_eq_ok.2 ⟨w, col, raw', hw, hcol, htype.trans htype'.symm, hraw', rfl⟩⟩
  · exact ⟨c, h⟩

theorem SetClause.signed_colName (s : SetClause) : s.signed.colName = s.colName := by
  unfold SetClause.signed
  split <;> rfl

theorem applySet_eq (hok : SetOk name tab s) (hok' : SetOk name tab s') (hsigned : s.signed = s'.signed)
    (h : analyzeSet name tab s = .ok c) (h' : analyzeSet name tab s' = .ok c') (base dest : Bytes) :
    applySets tab [c] base dest = applySets tab [c'] base dest := by
  obtain ⟨d, hd⟩ := analyzeSet_signed h
  have hname : s'.colName = s.colName := by rw [← s'.signed_colName, ← hsigned, s.signed_colName]
  obtain ⟨v, col, raw, -, hcol, -, -, hc⟩ := analyzeSet_eq_ok.1 h
  obtain ⟨v', col', raw', -, -, -, -, hc'⟩ := analyzeSet_eq_ok.1 h'
  have hlhs : c.lhs = name s.colName := congrArg Rmdb.Txn.SetClause.lhs hc
  have hlhs' : c'.lhs = name s.colName := (congrArg Rmdb.Txn.SetClause.lhs hc').trans (congrArg name hname)
  have hcol' : tab.findCol (name s'.colName) = some col := by rw [hname, hcol]
  have heq := (applySetValue_signed hok h hd hcol base dest).symm.trans
    (applySetValue_signed hok' h' (hsigned ▸ hd) hcol' base dest)
  simpa only [applySets, List.foldl_cons, List.foldl_nil, hlhs, hlhs', hcol] using heq

/-- Clauses that are the same but for the place of the sign do the same to every row. -/
theorem applySets_signed {sets sets' : List SetClause} {cs cs' : List Rmdb.Txn.SetClause}
    (hsigned : sets.map SetClause.signed = sets'.map SetClause.signed) (hok : ∀ s ∈ sets ++ sets', SetOk name tab s)
    (h : List.Forall₂ (fun s c => analyzeSet name tab s = .ok c) sets cs)
    (h' : List.Forall₂ (fun s c => analyzeSet name tab s = .ok c) sets' cs') (base dest : Bytes) :
    applySets tab cs base dest = applySets tab cs' base dest := by
  induction h generalizing sets' cs' dest with
  | nil =>
      obtain rfl := List.map_eq_nil_iff.1 hsigned.symm
      cases h'
      rfl
  | @cons s c sets cs hs _ ih =>
      cases h' with
      | nil => cases hsigned
      | @cons s' c' sets' cs' hs' hrest' =>
          obtain ⟨hhead, htail⟩ := List.cons.inj hsigned
          have hone := applySet_eq (hok s (by simp)) (hok s' (by simp)) hhead hs hs' base dest
          have hcons : ∀ c cs, applySets tab (c :: cs) base dest = applySets tab cs base (applySets tab [c] base dest) :=
            fun _ _ => rfl
          rw [hcons, hcons, hone]
          refine ih htail (fun x hx => hok x ?_) hrest' _
          rcases List.mem_append.1 hx with hx | hx
          · exact List.mem_append_left _ (List.mem_cons_of_mem _ hx)
          · exact List.mem_append_right _ (List.mem_cons_of_mem _ hx)

end

end Rmdb.Parser
