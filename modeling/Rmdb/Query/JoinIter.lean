import Rmdb.Lib.Iter
import Rmdb.Query.Joins

/-!
# The iterator of the nested loop join

`NestedLoopJoinExecutor` (src/execution/executor_nestedloop_join.h) with its position: the left
child, the rows buffered from the right one, the index of the row in the buffer, and the end
flag.  The children are any executors that follow the iterator protocol, with states of any
type; a child may give each row away once, as a table scan does, for the join takes it once and
keeps it.  From each position the search leads to the next pair that matches, or to the end
(`findNextMatch_spec`); so the join follows the protocol itself, with the rows of
`nestedLoopJoin` (`join_yields`), and an outer join may take it as a child.
-/

namespace Rmdb.Query

open Rmdb.Txn
open Rmdb.Lib (Iter)

/-! ## Executors -/

/-- An `AbstractExecutor` with states `σ`. -/
structure Executor (σ : Type) extends Iter σ Bytes where
  cols : Cols
  tupleLen : Nat

/-- It yields the rows, each of `tupleLen` bytes, to one that takes each once: `Next` of a scan moves its record
out. -/
structure Executor.HandsOut {σ : Type} (e : Executor σ) (rows : List Bytes) (s : σ) : Prop where
  follows : e.toIter.YieldsOnce rows s
  len : ∀ row ∈ rows, row.length = e.tupleLen

/-- It yields the rows, each of `tupleLen` bytes and as often as it is asked, when it is started in state `s`. -/
structure Executor.Yields {σ : Type} (e : Executor σ) (rows : List Bytes) (s : σ) : Prop where
  follows : e.toIter.Yields rows s
  len : ∀ row ∈ rows, row.length = e.tupleLen

structure NestedLoopJoinExecutor (σ τ : Type) where
  left : σ
  right : τ
  isend : Bool := false
  /-- `cur_left_` -/
  curLeft : Option Bytes := none
  rightBuf : List Bytes := []
  rightIdx : Nat := 0

namespace NestedLoopJoinExecutor

variable {σ τ : Type} (l : Executor σ) (r : Executor τ) (conds : List Condition)

/-- `buffer_right`, at most `fuel` times round its loop. -/
def bufferRight (fuel : Nat) (st : NestedLoopJoinExecutor σ τ) : Option (NestedLoopJoinExecutor σ τ) :=
  (r.collect fuel st.right).map fun p => { st with rightBuf := p.1, right := p.2 }

/-- `find_next_match`; `none` also for a row that is not there. -/
def findNextMatch : Nat → NestedLoopJoinExecutor σ τ → Option (NestedLoopJoinExecutor σ τ)
  | 0, _ => none
  | fuel + 1, st =>
      if st.isend then some st
      else
        match st.rightBuf[st.rightIdx]? with
        | none =>
            (l.advance st.left).bind fun left =>
              if l.done left then some { st with left := left, isend := true }
              else
                (l.get left).bind fun p =>
                  findNextMatch fuel { st with left := p.2, curLeft := some p.1, rightIdx := 0 }
        | some row =>
            st.curLeft.bind fun cur =>
              if evalJoinConds l.cols r.cols conds cur row then some st
              else findNextMatch fuel { st with rightIdx := st.rightIdx + 1 }

def beginTuple (fuel : Nat) (st : NestedLoopJoinExecutor σ τ) : Option (NestedLoopJoinExecutor σ τ) :=
  (l.start st.left).bind fun left =>
    let st := { st with left := left }
    if l.done left then some { st with isend := true }
    else
      (bufferRight r fuel st).bind fun st =>
        if st.rightBuf = [] then some { st with isend := true }
        else
          (l.get st.left).bind fun p =>
            findNextMatch l r conds fuel
              { st with rightIdx := 0, isend := false, left := p.2, curLeft := some p.1 }

def nextTuple (fuel : Nat) (st : NestedLoopJoinExecutor σ τ) : Option (NestedLoopJoinExecutor σ τ) :=
  if st.isend then some st
  else findNextMatch l r conds fuel { st with rightIdx := st.rightIdx + 1 }

/-- `Next`: the two rows one after the other. -/
def next (st : NestedLoopJoinExecutor σ τ) : Option (Bytes × NestedLoopJoinExecutor σ τ) :=
  st.curLeft.bind fun cur =>
    (st.rightBuf[st.rightIdx]?).map fun row => (cur.take l.tupleLen ++ row.take r.tupleLen, st)

/-- The executor, each loop at most `fuel` times round. -/
def executor (fuel : Nat) : Executor (NestedLoopJoinExecutor σ τ) where
  start := beginTuple l r conds fuel
  advance := nextTuple l r conds fuel
  done := isend
  get := next l r
  cols := l.cols ++ shiftCols l.tupleLen r.cols
  tupleLen := l.tupleLen + r.tupleLen

/-- The constructor. -/
def new (left : σ) (right : τ) : NestedLoopJoinExecutor σ τ := { left := left, right := right }

/-! ## Positions -/

section

variable {l r conds} {ls rs : List Bytes} {LiveL : σ → Prop} {AtL : Nat → σ → Prop} {FreshL : Nat → σ → Prop}
  {LiveR : τ → Prop}

/-- The rows of one left row from the right row `j` on. -/
def rowsFrom (l : Executor σ) (r : Executor τ) (conds : List Condition) (rs : List Bytes) (row : Bytes) (j : Nat) :
    List Bytes :=
  ((rs.drop j).filter (evalJoinConds l.cols r.cols conds row)).map fun right => row ++ right

/-- What comes from the pair of the left row `i` and the right row `j` on. -/
def rest (l : Executor σ) (r : Executor τ) (conds : List Condition) (ls rs : List Bytes) (row : Bytes) (i j : Nat) :
    List Bytes :=
  rowsFrom l r conds rs row j ++ (ls.drop (i + 1)).flatMap fun row => rowsFrom l r conds rs row 0

/-- The executor is at the pair of the left row `i`, which is `row`, and the right row `j`. -/
structure AtPair (ls rs : List Bytes) (AtL : Nat → σ → Prop) (LiveR : τ → Prop) (i j : Nat) (row : Bytes)
    (st : NestedLoopJoinExecutor σ τ) : Prop where
  going : st.isend = false
  left : AtL i st.left
  leftRow : ls[i]? = some row
  cur : st.curLeft = some row
  buf : st.rightBuf = rs
  idx : st.rightIdx = j
  right : LiveR st.right

/-- The executor is at the end. -/
structure AtEnd (LiveL : σ → Prop) (LiveR : τ → Prop) (st : NestedLoopJoinExecutor σ τ) : Prop where
  ended : st.isend = true
  left : LiveL st.left
  right : LiveR st.right

/-- Where a search stops that has `rows` before it. -/
def Stopped (l : Executor σ) (r : Executor τ) (conds : List Condition) (ls rs : List Bytes) (LiveL : σ → Prop)
    (AtL : Nat → σ → Prop) (LiveR : τ → Prop) (rows : List Bytes) (st : NestedLoopJoinExecutor σ τ) : Prop :=
  (rows = [] ∧ AtEnd LiveL LiveR st) ∨
    ∃ i j row right, AtPair ls rs AtL LiveR i j row st ∧ rs[j]? = some right ∧
      evalJoinConds l.cols r.cols conds row right = true ∧ rows = rest l r conds ls rs row i j

theorem rowsFrom_end {row : Bytes} {j : Nat} (h : rs.length ≤ j) : rowsFrom l r conds rs row j = [] := by
  unfold rowsFrom
  rw [List.drop_eq_nil_of_le h]
  rfl

theorem rowsFrom_match {row right : Bytes} {j : Nat} (hj : rs[j]? = some right)
    (hm : evalJoinConds l.cols r.cols conds row right = true) :
    rowsFrom l r conds rs row j = (row ++ right) :: rowsFrom l r conds rs row (j + 1) := by
  obtain ⟨hlt, rfl⟩ := List.getElem?_eq_some_iff.1 hj
  unfold rowsFrom
  rw [List.drop_eq_getElem_cons hlt, List.filter_cons_of_pos hm, List.map_cons]

theorem rowsFrom_skip {row right : Bytes} {j : Nat} (hj : rs[j]? = some right)
    (hm : ¬ evalJoinConds l.cols r.cols conds row right = true) :
    rowsFrom l r conds rs row j = rowsFrom l r conds rs row (j + 1) := by
  obtain ⟨hlt, rfl⟩ := List.getElem?_eq_some_iff.1 hj
  unfold rowsFrom
  rw [List.drop_eq_getElem_cons hlt, List.filter_cons_of_neg hm]

theorem rest_match {row right : Bytes} {i j : Nat} (hj : rs[j]? = some right)
    (hm : evalJoinConds l.cols r.cols conds row right = true) :
    rest l r conds ls rs row i j = (row ++ right) :: rest l r conds ls rs row i (j + 1) := by
  unfold rest
  rw [rowsFrom_match hj hm, List.cons_append]

theorem rest_skip {row right : Bytes} {i j : Nat} (hj : rs[j]? = some right)
    (hm : ¬ evalJoinConds l.cols r.cols conds row right = true) :
    rest l r conds ls rs row i j = rest l r conds ls rs row i (j + 1) := by
  unfold rest
  rw [rowsFrom_skip hj hm]

theorem rest_nextLeft {row row' : Bytes} {i j : Nat} (hj : rs.length ≤ j) (hi : ls[i + 1]? = some row') :
    rest l r conds ls rs row i j = rest l r conds ls rs row' (i + 1) 0 := by
  obtain ⟨hlt, rfl⟩ := List.getElem?_eq_some_iff.1 hi
  unfold rest
  rw [rowsFrom_end hj, List.nil_append, List.drop_eq_getElem_cons hlt, List.flatMap_cons]

theorem rest_end {row : Bytes} {i j : Nat} (hj : rs.length ≤ j) (hi : ls.length ≤ i + 1) :
    rest l r conds ls rs row i j = [] := by
  unfold rest
  rw [rowsFrom_end hj, List.drop_eq_nil_of_le hi]
  rfl

/-- The search goes on to the next matching pair, or to the end.  The number of pairs that are left
bounds the turns. -/
theorem findNextMatch_spec (hl : l.FollowsOnce ls LiveL AtL FreshL) : ∀ (fuel i j : Nat) (row : Bytes)
    (st : NestedLoopJoinExecutor σ τ), AtPair ls rs AtL LiveR i j row st →
    (ls.length - 1 - i) * (rs.length + 1) + (rs.length - j) < fuel →
    ∃ st', findNextMatch l r conds fuel st = some st' ∧
      Stopped l r conds ls rs LiveL AtL LiveR (rest l r conds ls rs row i j) st' := by
  intro fuel
  induction fuel with
  | zero => intro i j row st _ hfuel; omega
  | succ fuel ih =>
      intro i j row st h hfuel
      have hi := (List.getElem?_eq_some_iff.1 h.leftRow).1
      unfold findNextMatch
      rw [h.going, if_neg Bool.false_ne_true, h.buf, h.idx]
      cases hj : rs[j]? with
      | some right =>
          have hjlt := (List.getElem?_eq_some_iff.1 hj).1
          simp only [h.cur, Option.bind_some]
          by_cases hm : evalJoinConds l.cols r.cols conds row right = true
          · rw [if_pos hm]
            exact ⟨st, rfl, .inr ⟨i, j, row, right, h, hj, hm, rfl⟩⟩
          · rw [if_neg hm, rest_skip hj hm]
            exact ih i (j + 1) row _ ⟨rfl, h.left, h.leftRow, rfl, rfl, rfl, h.right⟩ (by omega)
      | none =>
          have hjge := List.getElem?_eq_none_iff.1 hj
          simp only
          obtain ⟨left, hadv, hleft⟩ := hl.advance i st.left hi h.left
          rw [hadv, Option.bind_some, hl.done (i + 1) left hi (hl.position _ _ hleft)]
          by_cases hlast : ls.length ≤ i + 1
          · rw [decide_eq_true hlast, if_pos rfl, rest_end hjge hlast]
            exact ⟨_, rfl, .inl ⟨rfl, rfl, hl.live _ _ (hl.position _ _ hleft), h.right⟩⟩
          · have hlt : i + 1 < ls.length := not_le.1 hlast
            rw [decide_eq_false hlast, if_neg Bool.false_ne_true]
            obtain ⟨left', hget, hleft'⟩ := hl.get (i + 1) left _ (List.getElem?_eq_getElem hlt) hleft
            rw [hget, Option.bind_some, rest_nextLeft hjge (List.getElem?_eq_getElem hlt)]
            refine ih (i + 1) 0 ls[i + 1] _ ⟨rfl, hleft', List.getElem?_eq_getElem hlt, rfl, rfl, rfl, h.right⟩ ?_
            obtain ⟨k, hk⟩ : ∃ k, ls.length - 1 - i = k + 1 := ⟨ls.length - 1 - i - 1, by omega⟩
            rw [hk, Nat.succ_mul] at hfuel
            rw [show ls.length - 1 - (i + 1) = k by omega]
            omega

theorem nestedLoopJoin_eq : nestedLoopJoin l.cols r.cols conds ls rs =
    ls.flatMap fun row => rowsFrom l r conds rs row 0 := rfl

theorem nestedLoopJoin_cons {row : Bytes} (h : ls[0]? = some row) :
    nestedLoopJoin l.cols r.cols conds ls rs = rest l r conds ls rs row 0 0 := by
  cases ls with
  | nil => cases h
  | cons a ls =>
      obtain rfl : a = row := Option.some.inj h
      rw [nestedLoopJoin_eq, List.flatMap_cons]
      rfl

/-- Turns that suffice for every call. -/
def turns (ls rs : List Bytes) : Nat := ls.length * (rs.length + 1) + rs.length + 1

theorem turns_le {i j fuel : Nat} (h : turns ls rs ≤ fuel) :
    (ls.length - 1 - i) * (rs.length + 1) + (rs.length - j) < fuel := by
  have hmul : (ls.length - 1 - i) * (rs.length + 1) ≤ ls.length * (rs.length + 1) :=
    Nat.mul_le_mul_right _ (by omega)
  unfold turns at h
  omega

/-- The states in which the join may be started. -/
def Live (LiveL : σ → Prop) (LiveR : τ → Prop) (st : NestedLoopJoinExecutor σ τ) : Prop :=
  LiveL st.left ∧ LiveR st.right

/-- The states at position `k` of the rows of the join. -/
def At (l : Executor σ) (r : Executor τ) (conds : List Condition) (ls rs : List Bytes) (LiveL : σ → Prop)
    (AtL : Nat → σ → Prop) (LiveR : τ → Prop) (k : Nat) (st : NestedLoopJoinExecutor σ τ) : Prop :=
  Stopped l r conds ls rs LiveL AtL LiveR ((nestedLoopJoin l.cols r.cols conds ls rs).drop k) st

theorem Stopped.live (hl : l.FollowsOnce ls LiveL AtL FreshL) {rows : List Bytes} {st : NestedLoopJoinExecutor σ τ}
    (h : Stopped l r conds ls rs LiveL AtL LiveR rows st) : Live LiveL LiveR st := by
  rcases h with ⟨-, h⟩ | ⟨i, j, row, right, h, -⟩
  · exact ⟨h.left, h.right⟩
  · exact ⟨hl.live i _ h.left, h.right⟩

/-- A stopped search has reached the end, or has a row to show. -/
theorem Stopped.isend {rows : List Bytes} {st : NestedLoopJoinExecutor σ τ}
    (h : Stopped l r conds ls rs LiveL AtL LiveR rows st) : st.isend = true ↔ rows = [] := by
  rcases h with ⟨hnil, h⟩ | ⟨i, j, row, right, h, hj, hm, rfl⟩
  · exact ⟨fun _ => hnil, fun _ => h.ended⟩
  · rw [rest_match hj hm, h.going]
    exact ⟨fun hc => (by cases hc), fun hc => (by cases hc)⟩

theorem Stopped.next (hls : ∀ row ∈ ls, row.length = l.tupleLen) (hrs : ∀ row ∈ rs, row.length = r.tupleLen)
    {x : Bytes} {rows : List Bytes} {st : NestedLoopJoinExecutor σ τ}
    (h : Stopped l r conds ls rs LiveL AtL LiveR (x :: rows) st) : next l r st = some (x, st) := by
  rcases h with ⟨hnil, -⟩ | ⟨i, j, row, right, h, hj, hm, heq⟩
  · cases hnil
  · rw [rest_match hj hm] at heq
    have hrow := hls row (List.mem_of_getElem? h.leftRow)
    have hright := hrs right (List.mem_of_getElem? hj)
    unfold NestedLoopJoinExecutor.next
    rw [h.cur, h.buf, h.idx, hj, Option.bind_some, Option.map_some, ← hrow, ← hright, List.take_length,
      List.take_length, (List.cons.inj heq).1]

theorem Stopped.nextTuple (hl : l.FollowsOnce ls LiveL AtL FreshL) {fuel : Nat} (hfuel : turns ls rs ≤ fuel) {x : Bytes}
    {rows : List Bytes} {st : NestedLoopJoinExecutor σ τ}
    (h : Stopped l r conds ls rs LiveL AtL LiveR (x :: rows) st) :
    ∃ st', nextTuple l r conds fuel st = some st' ∧ Stopped l r conds ls rs LiveL AtL LiveR rows st' := by
  rcases h with ⟨hnil, -⟩ | ⟨i, j, row, right, h, hj, hm, heq⟩
  · cases hnil
  · rw [rest_match hj hm] at heq
    unfold NestedLoopJoinExecutor.nextTuple
    rw [h.going, if_neg Bool.false_ne_true, h.idx, (List.cons.inj heq).2]
    exact findNextMatch_spec hl fuel i (j + 1) row _ ⟨rfl, h.left, h.leftRow, h.cur, h.buf, rfl, h.right⟩
      (turns_le hfuel)

/-- The buffer holds the right rows. -/
theorem bufferRight_spec {AtR FreshR : Nat → τ → Prop} (hr : r.FollowsOnce rs LiveR AtR FreshR) {fuel : Nat} (hfuel : rs.length < fuel)
    {st : NestedLoopJoinExecutor σ τ} (hst : LiveR st.right) :
    ∃ right, bufferRight r fuel st = some { st with rightBuf := rs, right := right } ∧ LiveR right := by
  obtain ⟨s0, hstart, h0⟩ := hr.start _ hst
  obtain ⟨right, hcol, hright⟩ := hr.collectFrom fuel 0 s0 h0 (Nat.zero_le _) hfuel
  refine ⟨right, ?_, hr.live _ _ hright⟩
  unfold bufferRight Iter.collect
  rw [hstart, Option.bind_some, hcol]
  rfl

theorem beginTuple_spec {AtR FreshR : Nat → τ → Prop} (hl : l.FollowsOnce ls LiveL AtL FreshL)
    (hr : r.FollowsOnce rs LiveR AtR FreshR) {fuel : Nat} (hfuel : turns ls rs ≤ fuel) {st : NestedLoopJoinExecutor σ τ} (hst : Live LiveL LiveR st) :
    ∃ st', beginTuple l r conds fuel st = some st' ∧
      Stopped l r conds ls rs LiveL AtL LiveR (nestedLoopJoin l.cols r.cols conds ls rs) st' := by
  have hbuf : rs.length < fuel := by
    unfold turns at hfuel
    omega
  obtain ⟨left, hstart, hleft⟩ := hl.start _ hst.1
  unfold beginTuple
  rw [hstart, Option.bind_some, hl.done 0 left (Nat.zero_le _) (hl.position _ _ hleft)]
  by_cases hempty : ls.length ≤ 0
  · -- no left row: the right child is not touched
    obtain rfl : ls = [] := List.length_eq_zero_iff.1 (Nat.le_zero.1 hempty)
    rw [decide_eq_true hempty, if_pos rfl]
    exact ⟨_, rfl, .inl ⟨rfl, rfl, hl.live _ _ (hl.position _ _ hleft), hst.2⟩⟩
  · rw [decide_eq_false hempty, if_neg Bool.false_ne_true]
    have hlive : LiveR ({ st with left := left } : NestedLoopJoinExecutor σ τ).right := hst.2
    obtain ⟨right, hbuffer, hright⟩ := bufferRight_spec hr hbuf hlive
    rw [hbuffer, Option.bind_some]
    by_cases hnil : rs = []
    · subst hnil
      rw [if_pos rfl]
      refine ⟨_, rfl, .inl ⟨?_, rfl, hl.live _ _ (hl.position _ _ hleft), hright⟩⟩
      unfold nestedLoopJoin
      rw [List.flatMap_eq_nil_iff]
      exact fun _ _ => rfl
    · rw [if_neg hnil]
      obtain ⟨row, hrow⟩ : ∃ row, ls[0]? = some row := ⟨_, List.getElem?_eq_getElem (not_le.1 hempty)⟩
      obtain ⟨left', hget, hleft'⟩ := hl.get 0 left row hrow hleft
      rw [hget, Option.bind_some, nestedLoopJoin_cons hrow]
      exact findNextMatch_spec hl fuel 0 0 row _ ⟨rfl, hleft', hrow, rfl, rfl, rfl, hright⟩ (turns_le hfuel)

/-- With turns enough the join follows the protocol. -/
theorem executor_follows {AtR FreshR : Nat → τ → Prop} (hl : l.FollowsOnce ls LiveL AtL FreshL)
    (hr : r.FollowsOnce rs LiveR AtR FreshR) (hls : ∀ row ∈ ls, row.length = l.tupleLen) (hrs : ∀ row ∈ rs, row.length = r.tupleLen) {fuel : Nat}
    (hfuel : turns ls rs ≤ fuel) :
    (executor l r conds fuel).Follows (nestedLoopJoin l.cols r.cols conds ls rs) (Live LiveL LiveR)
      (At l r conds ls rs LiveL AtL LiveR) where
  live _ _ h := h.live hl
  start _ h := beginTuple_spec hl hr hfuel h
  done k st _ h := by
    rw [Bool.eq_iff_iff, decide_eq_true_iff]
    exact h.isend.trans List.drop_eq_nil_iff
  get k st x hx h := by
    obtain ⟨hlt, rfl⟩ := List.getElem?_eq_some_iff.1 hx
    refine ⟨st, ?_, h⟩
    unfold At at h
    rw [List.drop_eq_getElem_cons hlt] at h
    exact h.next hls hrs
  advance k st hlt h := by
    unfold At at h
    rw [List.drop_eq_getElem_cons hlt] at h
    exact h.nextTuple hl hfuel

end

/-- Over children that hand out rows the join yields the rows of `nestedLoopJoin`. -/
theorem join_yields {l : Executor σ} {r : Executor τ} {ls rs : List Bytes} {left : σ} {right : τ}
    (hl : l.HandsOut ls left) (hr : r.HandsOut rs right) (conds : List Condition) {fuel : Nat}
    (hfuel : turns ls rs ≤ fuel) :
    (executor l r conds fuel).Yields (nestedLoopJoin l.cols r.cols conds ls rs) (new left right) := by
  obtain ⟨⟨LiveL, AtL, FreshL, hfl, hleft⟩, hls⟩ := hl
  obtain ⟨⟨LiveR, AtR, FreshR, hfr, hright⟩, hrs⟩ := hr
  refine ⟨⟨_, _, executor_follows hfl hfr hls hrs hfuel, hleft, hright⟩, ?_⟩
  intro row hrow
  unfold nestedLoopJoin at hrow
  obtain ⟨a, ha, hmem⟩ := List.mem_flatMap.1 hrow
  obtain ⟨b, hb, rfl⟩ := List.mem_map.1 hmem
  rw [List.length_append, hls a ha, hrs b (List.mem_filter.1 hb).1]
  rfl

end NestedLoopJoinExecutor

/-! ## What the conditions say of a pair of rows -/

/-- The relation an operator stands for. -/
def CompOp.test {α : Type} [LinearOrder α] (op : CompOp) (a b : α) : Bool :=
  match op with
  | .eq => decide (a = b)
  | .ne => decide (a ≠ b)
  | .lt => decide (a < b)
  | .gt => decide (b < a)
  | .le => decide (a ≤ b)
  | .ge => decide (b ≤ a)

/-- `CHAR` values are ordered byte by byte. -/
def charCode (b : Bytes) : List Int := b.map fun x => (x.toNat : Int)

/-- Do two fields of a type stand in the relation? -/
def fieldTest (type : ColType) (op : CompOp) (a b : Bytes) : Bool :=
  match type with
  | .int => CompOp.test op (getWord a 0).toInt (getWord b 0).toInt
  | .float => op.holds (cmpBytes a b 4 .float)
  | .string => CompOp.test op (charCode a) (charCode b)

/-- The field of a column that one of two rows has, the left one first. -/
def pairField (lcols rcols : Cols) (l r : Bytes) (c : TabCol) : Option (ColMeta × Bytes) :=
  match findJoinCol lcols c with
  | some col => some (col, getBytes l col.offset col.len)
  | none => (findJoinCol rcols c).map fun col => (col, getBytes r col.offset col.len)

/-- Does the pair satisfy the condition? -/
def satisfies (lcols rcols : Cols) (l r : Bytes) (c : Condition) : Bool :=
  match pairField lcols rcols l r c.lhsCol with
  | none => false
  | some (col, a) =>
      match c.rhsVal with
      | some v => fieldTest col.type c.op a v
      | none =>
          match pairField lcols rcols l r c.rhsCol with
          | none => false
          | some (_, b) => fieldTest col.type c.op a b

/-- The column a condition names, of either child. -/
def sideCol (lcols rcols : Cols) (c : TabCol) : Option ColMeta := (findJoinCol lcols c).or (findJoinCol rcols c)

/-- A condition on an `INT` or a `CHAR` column and a column or a literal of the same type and
length. -/
structure JoinCondTyped (lcols rcols : Cols) (c : Condition) (col : ColMeta) : Prop where
  lhs : sideCol lcols rcols c.lhsCol = some col
  type : (col.type = .int ∧ col.len = 4) ∨ col.type = .string
  lit : ∀ v, c.rhsVal = some v → v.length = col.len
  rhs : c.rhsVal = none → ∃ rcol, sideCol lcols rcols c.rhsCol = some rcol ∧ rcol.type = col.type ∧
    rcol.len = col.len

theorem holds_test {α : Type} [LinearOrder α] {a b : α} {cmp : Int} (hlt : cmp < 0 ↔ a < b)
    (heq : cmp = 0 ↔ a = b) (op : CompOp) : op.holds cmp = CompOp.test op a b := by
  rw [Bool.eq_iff_iff]
  cases op with
  | eq => exact (decide_eq_true_iff).trans (heq.trans decide_eq_true_iff.symm)
  | ne => exact (decide_eq_true_iff).trans ((not_congr heq).trans decide_eq_true_iff.symm)
  | lt => exact (decide_eq_true_iff).trans (hlt.trans decide_eq_true_iff.symm)
  | gt =>
      refine (decide_eq_true_iff).trans (Iff.trans ?_ decide_eq_true_iff.symm)
      rw [gt_iff_lt, ← not_le, ← not_le, le_iff_lt_or_eq, le_iff_lt_or_eq, hlt, heq]
  | le =>
      refine (decide_eq_true_iff).trans (Iff.trans ?_ decide_eq_true_iff.symm)
      rw [le_iff_lt_or_eq, le_iff_lt_or_eq, hlt, heq]
  | ge =>
      refine (decide_eq_true_iff).trans (Iff.trans ?_ decide_eq_true_iff.symm)
      rw [ge_iff_le, ← not_lt, ← not_lt, hlt]

theorem cmpBytes_int (a b : Bytes) (len : Nat) :
    (cmpBytes a b len .int < 0 ↔ (getWord a 0).toInt < (getWord b 0).toInt) ∧
      (cmpBytes a b len .int = 0 ↔ (getWord a 0).toInt = (getWord b 0).toInt) := by
  rcases Int.lt_trichotomy (getWord a 0).toInt (getWord b 0).toInt with h | h | h
  · have hcmp : cmpBytes a b len .int = -1 := if_pos h
    rw [hcmp]
    omega
  · have hcmp : cmpBytes a b len .int = 0 := (if_neg (by omega)).trans (if_neg (by omega))
    rw [hcmp]
    omega
  · have hcmp : cmpBytes a b len .int = 1 := (if_neg (by omega)).trans (if_pos h)
    rw [hcmp]
    omega

/-- The comparison of the first bytes of two places is the test of the fields there. -/
theorem serCmp_eq_fieldTest {col : ColMeta} (htype : (col.type = .int ∧ col.len = 4) ∨ col.type = .string)
    {a b : Bytes} (ha : col.len ≤ a.length) (hb : col.len ≤ b.length) (op : CompOp) :
    serCmp a b col.len col.type op = fieldTest col.type op (a.take col.len) (b.take col.len) := by
  unfold serCmp
  rcases htype with ⟨hint, hlen⟩ | hstr
  · rw [hint, hlen]
    have hword : ∀ x : Bytes, getWord (x.take 4) 0 = getWord x 0 := fun x =>
      getWord_take_congr (by rw [List.take_take, Nat.min_self])
    obtain ⟨hlt, heq⟩ := cmpBytes_int a b 4
    refine holds_test ?_ ?_ op
    · rw [hword, hword]
      exact hlt
    · rw [hword, hword]
      exact heq
  · rw [hstr]
    refine holds_test (Index.memcmp_lt_iff ha hb) ((Index.memcmp_eq_iff ha hb).trans ?_) op
    constructor
    · intro h
      rw [h]
    · intro h
      refine List.map_injective_iff.2 ?_ h
      intro x y hxy
      exact UInt8.toNat_inj.1 (Int.ofNat_inj.1 hxy)

/-- An operand with its field: the bytes from the column on, of which the field is the first part. -/
theorem joinOperand_field {lcols rcols : Cols} {l r : Bytes} {c : TabCol} {col : ColMeta}
    (hl : ∀ e ∈ lcols, e.2.offset + e.2.len ≤ l.length) (hr : ∀ e ∈ rcols, e.2.offset + e.2.len ≤ r.length)
    (h : sideCol lcols rcols c = some col) : ∃ b, joinOperand lcols rcols l r c = some (col, b) ∧
      pairField lcols rcols l r c = some (col, b.take col.len) ∧ col.len ≤ b.length := by
  have hmem : ∀ {cols : Cols}, findJoinCol cols c = some col → ∃ tab, (tab, col) ∈ cols := by
    intro cols hf
    obtain ⟨e, he, rfl⟩ := Option.map_eq_some_iff.1 hf
    exact ⟨e.1, List.mem_of_find?_eq_some he⟩
  unfold sideCol at h
  unfold joinOperand pairField
  cases hleft : findJoinCol lcols c with
  | some col' =>
      rw [hleft, Option.some_or] at h
      obtain rfl : col' = col := Option.some.inj h
      obtain ⟨tab, hin⟩ := hmem hleft
      have : col'.offset + col'.len ≤ l.length := hl _ hin
      refine ⟨l.drop col'.offset, rfl, rfl, ?_⟩
      rw [List.length_drop]
      omega
  | none =>
      rw [hleft, Option.none_or] at h
      obtain ⟨tab, hin⟩ := hmem h
      have : col.offset + col.len ≤ r.length := hr _ hin
      refine ⟨r.drop col.offset, ?_, ?_, ?_⟩
      · simp only [h, Option.map_some]
      · simp only [h, Option.map_some]
        rfl
      · rw [List.length_drop]
        omega

theorem evalJoinCond_eq {lcols rcols : Cols} {l r : Bytes} {c : Condition} {col : ColMeta}
    (hl : ∀ e ∈ lcols, e.2.offset + e.2.len ≤ l.length) (hr : ∀ e ∈ rcols, e.2.offset + e.2.len ≤ r.length)
    (h : JoinCondTyped lcols rcols c col) : evalJoinCond lcols rcols l r c = satisfies lcols rcols l r c := by
  obtain ⟨a, hopA, hfieldA, hlenA⟩ := joinOperand_field hl hr h.lhs
  unfold evalJoinCond satisfies
  simp only [hopA, hfieldA]
  cases hval : c.rhsVal with
  | some v =>
      have hv := h.lit v hval
      simp only
      rw [serCmp_eq_fieldTest h.type hlenA hv.ge, ← hv, List.take_length]
  | none =>
      obtain ⟨rcol, hrcol, -, hrlen⟩ := h.rhs hval
      obtain ⟨b, hopB, hfieldB, hlenB⟩ := joinOperand_field hl hr hrcol
      simp only [hopB, hfieldB]
      rw [hrlen] at hlenB ⊢
      exact serCmp_eq_fieldTest h.type hlenA hlenB c.op

/-- The pairs of rows that satisfy the conditions, left-major. -/
def joinedRows (lcols rcols : Cols) (conds : List Condition) (ls rs : List Bytes) : List Bytes :=
  ls.flatMap fun l => (rs.filter fun r => conds.all (satisfies lcols rcols l r)).map fun r => l ++ r

/-- The columns of an executor lie in its rows. -/
def Executor.Fits {σ : Type} (e : Executor σ) : Prop := ∀ c ∈ e.cols, c.2.offset + c.2.len ≤ e.tupleLen

theorem nestedLoopJoin_eq_joinedRows {lcols rcols : Cols} {conds : List Condition} {ls rs : List Bytes}
    {llen rlen : Nat} (hl : ∀ e ∈ lcols, e.2.offset + e.2.len ≤ llen) (hr : ∀ e ∈ rcols, e.2.offset + e.2.len ≤ rlen)
    (hls : ∀ row ∈ ls, row.length = llen) (hrs : ∀ row ∈ rs, row.length = rlen)
    (hconds : ∀ c ∈ conds, ∃ col, JoinCondTyped lcols rcols c col) :
    nestedLoopJoin lcols rcols conds ls rs = joinedRows lcols rcols conds ls rs := by
  unfold nestedLoopJoin joinedRows
  refine List.flatMap_congr fun l hlrow => congrArg _ (List.filter_congr fun r hrrow => ?_)
  unfold evalJoinConds
  refine all_congr_of_mem fun c hc => ?_
  obtain ⟨col, htyped⟩ := hconds c hc
  refine evalJoinCond_eq (fun e he => ?_) (fun e he => ?_) htyped
  · rw [hls l hlrow]
    exact hl e he
  · rw [hrs r hrrow]
    exact hr e he

/-- The join over two children that follow the protocol and may give each row away: with enough turns for its loops, taking
row after row ends with the pairs that satisfy all conditions, and so does doing it again. -/
theorem join_collect {σ τ : Type} {l : Executor σ} {r : Executor τ} {ls rs : List Bytes} {left : σ} {right : τ}
    (hl : l.HandsOut ls left) (hr : r.HandsOut rs right) (hlfit : l.Fits) (hrfit : r.Fits) {conds : List Condition}
    (hconds : ∀ c ∈ conds, ∃ col, JoinCondTyped l.cols r.cols c col) :
    ∃ turns, ∀ fuel, turns ≤ fuel → ∃ st1 st2,
      (NestedLoopJoinExecutor.executor l r conds fuel).collect fuel (NestedLoopJoinExecutor.new left right) =
        some (joinedRows l.cols r.cols conds ls rs, st1) ∧
      (NestedLoopJoinExecutor.executor l r conds fuel).collect fuel st1 =
        some (joinedRows l.cols r.cols conds ls rs, st2) := by
  refine ⟨max (NestedLoopJoinExecutor.turns ls rs) ((joinedRows l.cols r.cols conds ls rs).length + 1),
    fun fuel hfuel => ?_⟩
  have hyields := NestedLoopJoinExecutor.join_yields hl hr conds ((le_max_left _ _).trans hfuel)
  rw [nestedLoopJoin_eq_joinedRows hlfit hrfit hl.len hr.len hconds] at hyields
  have hturns : (joinedRows l.cols r.cols conds ls rs).length < fuel := (le_max_right _ _).trans hfuel
  obtain ⟨st1, hfirst, hagain⟩ := hyields.follows.collect hturns
  obtain ⟨st2, hsecond, -⟩ := hagain.collect hturns
  exact ⟨st1, st2, hfirst, hsecond⟩

/-- A scan of a table `name` with one `INT` column `x` and these rows; it gives each record away. -/
def Executor.ofRows (name : TabName) (rows : List Bytes) : Executor (List Bytes × Option Bytes) :=
  { Iter.ofList rows with cols := [(name, ⟨"x", .int, 4, 0⟩)], tupleLen := 4 }

theorem join_collect_lt : ∃ turns, ∀ fuel, turns ≤ fuel → ∃ st1 st2,
    (NestedLoopJoinExecutor.executor (.ofRows "a" [[1, 0, 0, 0], [2, 0, 0, 0]])
        (.ofRows "b" [[2, 0, 0, 0], [1, 0, 0, 0]]) [⟨⟨"b", "x"⟩, .gt, none, ⟨"a", "x"⟩⟩] fuel).collect fuel
          (NestedLoopJoinExecutor.new ([], none) ([], none)) = some ([[1, 0, 0, 0, 2, 0, 0, 0]], st1) ∧
      (NestedLoopJoinExecutor.executor (.ofRows "a" [[1, 0, 0, 0], [2, 0, 0, 0]])
        (.ofRows "b" [[2, 0, 0, 0], [1, 0, 0, 0]]) [⟨⟨"b", "x"⟩, .gt, none, ⟨"a", "x"⟩⟩] fuel).collect fuel st1 =
          some ([[1, 0, 0, 0, 2, 0, 0, 0]], st2) := by
  refine join_collect (l := .ofRows "a" [[1, 0, 0, 0], [2, 0, 0, 0]]) (r := .ofRows "b" [[2, 0, 0, 0], [1, 0, 0, 0]])
    ⟨Iter.ofList_yieldsOnce _ _, by decide⟩ ⟨Iter.ofList_yieldsOnce _ _, by decide⟩ ?_ ?_ ?_
  · intro c hc
    rw [List.mem_singleton.1 hc]
    exact le_rfl
  · intro c hc
    rw [List.mem_singleton.1 hc]
    exact le_rfl
  · intro c hc
    obtain rfl := List.mem_singleton.1 hc
    exact ⟨⟨"x", .int, 4, 0⟩, by decide, .inl ⟨rfl, rfl⟩, fun v hv => (by cases hv), fun _ => ⟨_, by decide, rfl, rfl⟩⟩

end Rmdb.Query
