import Rmdb.Lib.Run
import Rmdb.Txn.Words
import Rmdb.Row.Ends
import Rmdb.Row.Assigned

/-!
# Increments of one row

Transactions that update one row with `SET c = c + k` and `SET c = c - k` only.  Each such
statement is a column delta: it starts from the transaction's own uncommitted bytes or from
the newest committed ones, and holds the row to the end of the transaction.  A ledger keeps
what each transaction owes to a column and the sum of what the committed ones have paid.
-/

namespace Rmdb.Txn

open Rmdb.Index (Rid)
open Rmdb.Lib (run run_invariant)

/-- The column and the amount of an `INT` clause `c = c ± k`. -/
def SetClause.increments (m : TabMeta) (s : SetClause) : Option (ColMeta × BitVec 32) :=
  if s.isArith ∧ s.lhs = s.rhsCol then
    (m.findCol s.lhs).bind fun c =>
      if c.type = .int ∧ c.len = 4 then some (c, if s.arithNeg then -s.intVal else s.intVal) else none
  else none

/-- What a clause adds to the column `col`. -/
def SetClause.amount (m : TabMeta) (col : ColMeta) (s : SetClause) : BitVec 32 :=
  match s.increments m with
  | some (c, k) => if c = col then k else 0
  | none => 0

inductive IncOp where
  | begin (explicit : Bool) (iso : IsolationLevel)
  | increment (t : TxnId) (s : SetClause)
  | commit (t : TxnId)
  | abort (t : TxnId)

/-- The state with its ledger: `owed` by the transactions that run, `total` of the committed
ones. -/
structure IncState where
  db : Db
  owed : TxnId → BitVec 32
  total : BitVec 32

/-- One step on row `r`; the ledger is that of column `col`.  A statement that cannot write
aborts its transaction. -/
def incStep (r : RowId) (col : ColMeta) (st : IncState) : IncOp → Option IncState
  | .begin explicit iso => some { st with db := st.db.begin explicit iso }
  | .increment t s =>
      if st.db.Live t ∧ st.db.needsVersioning (st.db.txn t) r.tab = true ∧
          (s.increments (st.db.tabs r.tab)).isSome then
        match Db.updateRow t r.tab [s] st.db r.rid with
        | .next db | .done db =>
            some
              { st with
                db := db.releaseStatementWrites t
                owed := Function.update st.owed t (st.owed t + s.amount (st.db.tabs r.tab) col) }
        | .abort db => some { st with db := db.abort t, owed := Function.update st.owed t 0 }
        | .stop => none
      else none
  | .commit t =>
      if st.db.Live t then
        (st.db.commit t).map fun db =>
          ⟨db, Function.update st.owed t 0, st.total + st.owed t⟩
      else none
  | .abort t =>
      if st.db.Live t then some { st with db := st.db.abort t, owed := Function.update st.owed t 0 }
      else none

/-- The newest committed bytes of a row. -/
def Db.newestCommitted (db : Db) (r : RowId) : Image :=
  (((db.rows r).chain.bind fun c => c.hist.getLast?).map MvccVer.data).getD (db.rows r).slot.data

/-! ## Columns -/

theorem ColsAt.apart {off : Nat} {cols : List ColMeta} (h : ColsAt off cols) :
    ∀ c ∈ cols, ∀ d ∈ cols, c ≠ d → c.offset + c.len ≤ d.offset ∨ d.offset + d.len ≤ c.offset := by
  have hlow : ∀ (cols : List ColMeta) (off : Nat), ColsAt off cols → ∀ c ∈ cols, off ≤ c.offset := by
    intro cols
    induction cols with
    | nil => intro off _ c hc; cases hc
    | cons e es ih =>
        rintro off ⟨he, hes⟩ c hc
        rcases List.mem_cons.1 hc with rfl | hc
        · omega
        · have := ih _ hes c hc
          omega
  induction cols generalizing off with
  | nil => intro c hc; cases hc
  | cons e es ih =>
      intro c hc d hd hne
      obtain ⟨he, hes⟩ := h
      rcases List.mem_cons.1 hc with hce | hce <;> rcases List.mem_cons.1 hd with hde | hde
      · exact absurd (hce.trans hde.symm) hne
      · subst hce
        have := hlow es _ hes d hde
        omega
      · subst hde
        have := hlow es _ hes c hce
        omega
      · exact ih hes c hce d hde hne

theorem increments_spec {m : TabMeta} {s : SetClause} {c : ColMeta} {k : BitVec 32}
    (h : s.increments m = some (c, k)) :
    detectColArithDelta m [s] = some ⟨c.offset, .int, 0, k⟩ ∧ c ∈ m.cols ∧ c.len = 4 := by
  unfold SetClause.increments at h
  obtain ⟨⟨harith, hlhs⟩, h⟩ := Option.ite_none_right_eq_some.1 h
  obtain ⟨c', hcol, hty⟩ := Option.bind_eq_some_iff.1 h
  obtain ⟨hint, heq⟩ := Option.ite_none_right_eq_some.1 hty
  cases heq
  refine ⟨?_, TabMeta.findCol_mem hcol, hint.2⟩
  simp [detectColArithDelta, harith, ← hlhs, hcol, hint.1, hint.2]

/-! ## One column delta -/

variable {db db' : Db} {t : TxnId} {r : RowId} {row : Row} {ws : List WriteRecord} {mark : Bool}
variable {visible : Image} {d : ColArithDelta}

/-- What an increment of a row by `UpdateExecutor` can do: it finds the row held, or it
writes a column delta, and may still be aborted by the SSI check. -/
theorem updateRow_increment {s : SetClause} {c : ColMeta} {k : BitVec 32}
    (hv : db.needsVersioning (db.txn t) r.tab = true)
    (hs : s.increments (db.tabs r.tab) = some (c, k)) (hread : db.mvccRead t r = some visible) :
    (db.held t r = true ∧ Db.updateRow t r.tab [s] db r.rid = .abort (db.touchChain t r)) ∨
    ∃ db1 img db2, db.held t r = false ∧
      (Db.updateRow t r.tab [s] db r.rid = .next db2 ∨ Db.updateRow t r.tab [s] db r.rid = .abort db2) ∧
      RowWrite db db1 t r ((db.rows r).withChain (db.writtenChain t r visible false img true))
        (db.newRecord t r ⟨.updateTuple, r, visible⟩) true ∧
      RowWrite db1 db2 t r (db1.rows r) [] false ∧
      img.bytes = ColArithDelta.apply ⟨c.offset, .int, 0, k⟩ (Db.writeBase t (db.chainOf r)
        visible.bytes (db.unseen t r) (db.tabs r.tab).recordSize) := by
  obtain ⟨hdet, hcol, hlen⟩ := increments_spec hs
  have hok := detectColArithDelta_ok hdet
  have hr : (⟨r.tab, r.rid⟩ : RowId) = r := rfl
  have hchoose : db.chooseWrite t r visible [s] =
      db.colDelta t r visible ⟨c.offset, .int, 0, k⟩ := by
    unfold Db.chooseWrite
    simp only [hdet]
  unfold Db.updateRow
  simp only [hv, if_true, hr, hread, hchoose]
  rcases colDelta_cases t visible hok with
    ⟨hheld, hout⟩ | ⟨db1, img, hheld, hout, hw, hval⟩
  · rw [hout]
    exact .inl ⟨hheld, rfl⟩
  · rw [hout]
    right
    have hany : db1.anyMvccDirty = true := by rw [hw.anyMvccDirty, Bool.or_true]
    have h1 := RowWrite.serCheck db1 t r visible.bytes
    have h2 := h1.andThen (RowWrite.serCheck _ t r img.bytes)
    dsimp only
    split
    · exact ⟨db1, img, _, hheld, .inr rfl, hw, h2, hval⟩
    · refine ⟨db1, img, _, hheld, .inl rfl, hw, h2.andThen (finishUpdate_versioned _ t r _ _ img ?_), hval⟩
      rw [h2.anyMvccDirty, hany]
      rfl

/-! ## The invariant -/

/-- The row and its ledger: the heap and the newest version hold what the committed
transactions have paid, the uncommitted bytes also what their writer owes. -/
structure Tallied (r : RowId) (col : ColMeta) (v0 : BitVec 32) (st : IncState) : Prop where
  inv : Inv st.db
  column : col ∈ (st.db.tabs r.tab).cols ∧ col.len = 4
  isRecord : (st.db.rows r).slot.isRecord = true
  size : (st.db.rows r).slot.data.bytes.length = (st.db.tabs r.tab).recordSize
  heap : getWord (st.db.rows r).slot.data.bytes col.offset = v0 + st.total
  pending : (st.db.rows r).pending = none
  overlay : ∀ u, (st.db.txn u).overlay r = none
  touched : ∀ u, (st.db.txn u).touches r = true →
    ∃ c, (st.db.rows r).chain = some c ∧ c.writer = some u
  owed : ∀ u, st.owed u ≠ 0 → (st.db.txn u).touches r = true
  newest : ∀ c, (st.db.rows r).chain = some c → ∃ v, c.hist.getLast? = some v ∧
    v.isDeleted = false ∧ v.data.bytes = (st.db.rows r).slot.data.bytes
  writer : ∀ c u, (st.db.rows r).chain = some c → c.writer = some u →
    (st.db.txn u).touches r = true ∧ c.writerDel = false ∧ c.holdWriterToCommit = true ∧
      c.writerData.bytes.length = (st.db.tabs r.tab).recordSize ∧
      getWord c.writerData.bytes col.offset = v0 + st.total + st.owed u

variable {col : ColMeta} {v0 : BitVec 32} {st : IncState}

theorem Tallied.size_pos (h : Tallied r col v0 st) : 4 ≤ (st.db.tabs r.tab).recordSize := by
  have := (st.db.tabs r.tab).fits h.column.1
  rw [h.column.2] at this
  omega

/-- Steps that leave the row and the write sets alone. -/
theorem Tallied.congr (h : Tallied r col v0 st) {db' : Db} (hI : Inv db')
    (htabs : db'.tabs = st.db.tabs) (hrow : db'.rows r = st.db.rows r)
    (hov : ∀ u, (db'.txn u).overlay r = (st.db.txn u).overlay r)
    (htouch : ∀ u, (db'.txn u).touches r = (st.db.txn u).touches r) :
    Tallied r col v0 { st with db := db' } where
  inv := hI
  column := by rw [htabs]; exact h.column
  isRecord := by rw [hrow]; exact h.isRecord
  size := by rw [hrow, htabs]; exact h.size
  heap := by rw [hrow]; exact h.heap
  pending := by rw [hrow]; exact h.pending
  overlay := fun u => by rw [hov]; exact h.overlay u
  touched := fun u hu => by rw [htouch] at hu; rw [hrow]; exact h.touched u hu
  owed := fun u hu => by rw [htouch]; exact h.owed u hu
  newest := fun c hc => by rw [hrow] at hc ⊢; exact h.newest c hc
  writer := fun c u hc hu => by rw [hrow] at hc; rw [htouch, htabs]; exact h.writer c u hc hu

/-- The chain of a tallied row, without its owner's bytes. -/
theorem Tallied.free_writer (h : Tallied r col v0 st) (hfree : st.db.held t r = false) :
    (∃ c, (st.db.rows r).chain = some c ∧ c.writer = some t) ∨
      ((st.db.chainOf r).writer = none ∧ st.owed t = 0) := by
  rcases writer_of_free (by simpa using hfree) with hnone | hsome
  · right
    refine ⟨hnone, ?_⟩
    by_contra hne
    obtain ⟨c, hc, hw⟩ := h.touched t (h.owed t hne)
    rw [Db.chainOf, hc, Option.getD_some, hw] at hnone
    cases hnone
  · left
    cases hc : (st.db.rows r).chain with
    | none =>
        rw [Db.chainOf, hc] at hsome
        cases hsome
    | some c =>
        rw [Db.chainOf, hc] at hsome
        exact ⟨c, rfl, hsome⟩

theorem readRec_self {b : Bytes} {n : Nat} (h : b.length = n) : readRec b n = b := by
  unfold readRec
  rw [← h, List.take_left]

/-- The bytes a delta of `t` starts from: its own, or those of the heap. -/
theorem Tallied.writeBase (h : Tallied r col v0 st) (hfree : st.db.held t r = false)
    (hread : st.db.mvccRead t r = some visible) :
    ∃ b, Db.writeBase t (st.db.chainOf r) visible.bytes (st.db.unseen t r)
        (st.db.tabs r.tab).recordSize = b ∧ b.length = (st.db.tabs r.tab).recordSize ∧
      getWord b col.offset = v0 + st.total + st.owed t := by
  have hpos := h.size_pos
  rcases h.free_writer hfree with ⟨c, hc, hw⟩ | ⟨hnone, howed⟩
  · obtain ⟨-, -, -, hlen, hword⟩ := h.writer c t hc hw
    have hch : st.db.chainOf r = c := by rw [Db.chainOf, hc]; rfl
    refine ⟨c.writerData.bytes, ?_, hlen, hword⟩
    unfold Db.writeBase
    have hne : c.writerData.bytes ≠ [] := by
      intro hnil
      rw [hnil, List.length_nil] at hlen
      omega
    rw [hch, if_pos ⟨hw, hne⟩]
  · have hheap : ((st.db.unseen t r).map fun v => v.data.bytes).getD visible.bytes =
        (st.db.rows r).slot.data.bytes := by
      unfold Db.unseen
      rw [if_neg (by rw [hnone]; exact fun h => by cases h)]
      cases hc : (st.db.rows r).chain with
      | none =>
          have hb := mvccRead_baseOk (fun hs => h.inv.chains.any hs) hread
            (by rw [Db.chainOf, hc]; rfl) hnone (h.overlay t)
          simp [Db.newerVer, Db.chainOf, hc, hb.2]
      | some c =>
          obtain ⟨v, hlast, hdel, hbytes⟩ := h.newest c hc
          have hch : st.db.chainOf r = c := by rw [Db.chainOf, hc]; rfl
          rw [hch] at hnone ⊢
          have hany : st.db.anyMvccDirty = true := h.inv.chains.any (r := r) (by rw [hc]; rfl)
          by_cases hts : v.commitTs ≤ (st.db.txn t).readTs
          · -- the newest version is visible, so it is what was read
            have hvis : visible = v.data := by
              simp [Db.mvccRead, hany, h.overlay t, hc, Db.chainRead, hnone, hlast, hts,
                Db.verImage, hdel] at hread
              exact hread.symm
            simp [Db.newerVer, hlast, Option.filter, Nat.not_lt.2 hts, hvis, hbytes]
          · simp [Db.newerVer, hlast, Option.filter, Nat.lt_of_not_le hts, hbytes]
    refine ⟨(st.db.rows r).slot.data.bytes, ?_, h.size, ?_⟩
    · unfold Db.writeBase
      rw [if_neg (by rw [hnone]; exact fun h => by cases h.1), hheap, readRec_self h.size]
    · rw [howed, h.heap, add_zero]

/-- Adding to one `INT` column adds to no other. -/
theorem apply_amount {m : TabMeta} {s : SetClause} {c : ColMeta} {k : BitVec 32} {b : Bytes}
    (hs : s.increments m = some (c, k)) (hcol : col ∈ m.cols ∧ col.len = 4)
    (hlen : b.length = m.recordSize) :
    (ColArithDelta.apply ⟨c.offset, .int, 0, k⟩ b).length = m.recordSize ∧
      getWord (ColArithDelta.apply ⟨c.offset, .int, 0, k⟩ b) col.offset =
        getWord b col.offset + s.amount m col := by
  obtain ⟨-, hc, hclen⟩ := increments_spec hs
  have hfit := m.fits hc
  rw [hclen, ← hlen] at hfit
  have happly : ColArithDelta.apply ⟨c.offset, .int, 0, k⟩ b =
      putWord b c.offset (getWord b c.offset + k) := rfl
  have hamount : s.amount m col = if c = col then k else 0 := by
    unfold SetClause.amount
    rw [hs]
  rw [happly, hamount]
  refine ⟨(putWord_length hfit _).trans hlen, ?_⟩
  split
  · rename_i heq
    rw [← heq, getWord_putWord hfit]
  · rename_i hne
    rw [add_zero]
    refine getWord_putWord_of_apart hfit _ ?_
    have := m.layout.apart c hc col hcol.1 hne
    rw [hclen, hcol.2] at this
    omega

/-- The write of an increment. -/
theorem Tallied.written (h : Tallied r col v0 st) (ht : st.db.Live t) {s : SetClause} {c : ColMeta}
    {k : BitVec 32} (hs : s.increments (st.db.tabs r.tab) = some (c, k))
    (hfree : st.db.held t r = false) (hread : st.db.mvccRead t r = some visible) {img : Image}
    (hw : RowWrite st.db db' t r ((st.db.rows r).withChain
        (st.db.writtenChain t r visible false img true))
      (st.db.newRecord t r ⟨.updateTuple, r, visible⟩) true)
    (hval : img.bytes = ColArithDelta.apply ⟨c.offset, .int, 0, k⟩ (Db.writeBase t (st.db.chainOf r)
      visible.bytes (st.db.unseen t r) (st.db.tabs r.tab).recordSize)) :
    Tallied r col v0 ⟨db', Function.update st.owed t (st.owed t + s.amount (st.db.tabs r.tab) col),
      st.total⟩ := by
  obtain ⟨b, hb, hlen, hword⟩ := h.writeBase hfree hread
  obtain ⟨hlen', hword'⟩ := apply_amount hs h.column hlen
  rw [hb] at hval
  rw [← hval] at hlen' hword'
  have hrow := hw.row_self
  -- after the write `t` has a record of the row, and nobody else ever had one
  have htouch : (db'.txn t).touches r = true := by
    by_cases hold : (st.db.txn t).touches r = true
    · exact hw.touches hold
    · have hnew : st.db.newRecord t r ⟨.updateTuple, r, visible⟩ = [⟨.updateTuple, r, visible⟩] := by
        have hnw : (st.db.chainOf r).writer ≠ some t := by
          intro hwt
          rcases h.free_writer hfree with ⟨c', hc', hw'⟩ | ⟨hnone, -⟩
          · exact hold (h.writer c' t hc' hw').1
          · rw [hnone] at hwt
            cases hwt
        simp [Db.newRecord, Db.firstTouch, hnw, h.overlay t, hold]
      rw [Transaction.touches, hw.writeSet, hnew]
      simp
  have hothers : ∀ u, u ≠ t → (st.db.txn u).touches r = false := by
    intro u hu
    by_contra hne
    obtain ⟨c', hc', hw'⟩ := h.touched u (by simpa using hne)
    rcases h.free_writer hfree with ⟨c'', hc'', hw''⟩ | ⟨hnone, -⟩
    · rw [hc'] at hc''
      cases hc''
      rw [hw'] at hw''
      exact hu (Option.some.inj hw'')
    · rw [Db.chainOf, hc', Option.getD_some, hw'] at hnone
      cases hnone
  have howed : ∀ u, u ≠ t → st.owed u = 0 := by
    intro u hu
    by_contra hne
    have := h.owed u hne
    rw [hothers u hu] at this
    cases this
  refine ⟨hw.inv ht h.inv ?_ (fun _ => .inr rfl), ?_, ?_, ?_, ?_, ?_, ?_, ?_, ?_, ?_, ?_⟩
  · intro c' hc'
    cases hc'
    unfold Db.writtenChain Db.withBase
    split
    · exact ⟨fun v hv => by rw [List.mem_singleton.1 hv]; exact Nat.zero_le _,
        List.pairwise_singleton _ _⟩
    · exact (h.inv.hist r).chainOf
  · rw [hw.tabs]
    exact h.column
  · rw [hrow]
    exact h.isRecord
  · rw [hrow, hw.tabs]
    exact h.size
  · rw [hrow]
    exact h.heap
  · rw [hrow]
    exact h.pending
  · intro u
    rw [hw.overlay]
    exact h.overlay u
  · intro u hu
    rw [hrow]
    refine ⟨_, rfl, ?_⟩
    rcases eq_or_ne u t with rfl | hne
    · rfl
    · rw [hw.txn_other hne, hothers u hne] at hu
      cases hu
  · intro u hu
    rcases eq_or_ne u t with rfl | hne
    · exact htouch
    · have hu' : Function.update st.owed t (st.owed t + s.amount (st.db.tabs r.tab) col) u ≠ 0 := hu
      rw [Function.update_of_ne hne] at hu'
      exact absurd (howed u hne) hu'
  · intro c' hc'
    rw [hrow] at hc' ⊢
    cases hc'
    unfold Db.writtenChain Db.withBase
    split
    · rename_i hbase
      have hb := mvccRead_baseOk (fun hs => h.inv.chains.any hs) hread hbase.1 hbase.2.1 hbase.2.2
      exact ⟨_, rfl, rfl, by rw [hb.2]; rfl⟩
    · rename_i hbase
      cases hc : (st.db.rows r).chain with
      | none =>
          refine absurd ⟨?_, ?_, h.overlay t⟩ hbase <;> rw [Db.chainOf, hc] <;> rfl
      | some c0 =>
          rw [Db.chainOf, hc]
          exact h.newest c0 hc
  · intro c' u hc' hu
    rw [hrow] at hc'
    cases hc'
    cases hu
    refine ⟨htouch, rfl, rfl, by rw [hw.tabs]; exact hlen', ?_⟩
    show getWord img.bytes col.offset = v0 + st.total +
      Function.update st.owed t (st.owed t + s.amount (st.db.tabs r.tab) col) t
    rw [Function.update_self, hword', hword]
    exact BitVec.add_assoc _ _ _

theorem Tallied.release (h : Tallied r col v0 st) (ht : st.db.Live t) :
    Tallied r col v0 { st with db := st.db.releaseStatementWrites t } := by
  have hrow : (st.db.releaseStatementWrites t).rows r = st.db.rows r ∧
      ((st.db.releaseStatementWrites t).txn t).overlay r = (st.db.txn t).overlay r := by
    rcases release_row st.db t r with hsame | ⟨c, -, hc, hw, hhold, -⟩
    · exact hsame
    · have := (h.writer c t hc hw).2.2.1
      rw [hhold] at this
      cases this
  refine h.congr (release_inv h.inv ht) (release_fields st.db t).2.2.2.2.2.2 hrow.1 ?_ ?_
  · intro u
    rcases eq_or_ne u t with rfl | hu
    · exact hrow.2
    · rw [Db.txn_congr (release_txns_ne hu)]
  · exact fun u => release_proj (fun x => x.touches r) (fun _ _ => rfl) u

/-! ## The ends of transactions -/

/-- The end of `t` leaves the row without its write; `row` holds `total'`. -/
theorem Tallied.ended (h : Tallied r col v0 st) (he : Ended st.db db' t) (hI : Inv db')
    (htabs : db'.tabs = st.db.tabs) {total' : BitVec 32}
    (hrec : (db'.rows r).slot.isRecord = true)
    (hsize : (db'.rows r).slot.data.bytes.length = (st.db.tabs r.tab).recordSize)
    (hheap : getWord (db'.rows r).slot.data.bytes col.offset = v0 + total')
    (hpend : (db'.rows r).pending = none)
    (hnewest : ∀ c, (db'.rows r).chain = some c → ∃ v, c.hist.getLast? = some v ∧
      v.isDeleted = false ∧ v.data.bytes = (db'.rows r).slot.data.bytes)
    (hwriter : (∀ c, (db'.rows r).chain = some c → c.writer = none) ∧
        (∀ u, u ≠ t → (st.db.txn u).touches r = false) ∨
      db'.rows r = st.db.rows r ∧ total' = st.total ∧ (st.db.txn t).touches r = false) :
    Tallied r col v0 ⟨db', Function.update st.owed t 0, total'⟩ := by
  obtain ⟨x, hx, -, hws, hov, -⟩ := he.self
  have hself : (db'.txn t).touches r = false := by
    rw [Db.txn, hx, Option.getD_some, Transaction.touches, hws]
    rfl
  have hother : ∀ u, u ≠ t → db'.txn u = st.db.txn u := fun u hu => Db.txn_congr (he.others u hu)
  refine ⟨hI, by rw [htabs]; exact h.column, hrec, by rw [htabs]; exact hsize, hheap, hpend,
    ?_, ?_, ?_, hnewest, ?_⟩
  · intro u
    rcases eq_or_ne u t with rfl | hu
    · rw [Db.txn, hx, Option.getD_some, hov]
    · rw [hother u hu]
      exact h.overlay u
  · intro u hu
    rcases eq_or_ne u t with rfl | hne
    · rw [hself] at hu
      cases hu
    · rw [hother u hne] at hu
      rcases hwriter with ⟨-, hnot⟩ | ⟨hrow, -, -⟩
      · rw [hnot u hne] at hu
        cases hu
      · rw [hrow]
        exact h.touched u hu
  · intro u hu
    have hu' : Function.update st.owed t 0 u ≠ 0 := hu
    rcases eq_or_ne u t with rfl | hne
    · rw [Function.update_self] at hu'
      exact absurd rfl hu'
    · rw [Function.update_of_ne hne] at hu'
      rw [hother u hne]
      exact h.owed u hu'
  · intro c u hc hu
    rcases hwriter with ⟨hnone, -⟩ | ⟨hrow, htotal, hnot⟩
    · rw [hnone c hc] at hu
      cases hu
    · have hne : u ≠ t := by
        rintro rfl
        rw [hrow] at hc
        rw [(h.writer c u hc hu).1] at hnot
        cases hnot
      have howed : Function.update st.owed t 0 u = st.owed u := Function.update_of_ne hne _ _
      rw [hrow] at hc
      dsimp only
      rw [hother u hne, htabs, htotal, howed]
      exact h.writer c u hc hu

theorem Tallied.owed_untouched (h : Tallied r col v0 st) (ht : (st.db.txn t).touches r = false) :
    st.owed t = 0 := by
  by_contra hne
  have := h.owed t hne
  rw [ht] at this
  cases this

/-- While `t` has a record of the row, no other transaction has one. -/
theorem Tallied.only (h : Tallied r col v0 st) {c : MvccChain} (hc : (st.db.rows r).chain = some c)
    (hw : c.writer = some t) : ∀ u, u ≠ t → (st.db.txn u).touches r = false := by
  intro u hu
  by_contra hne
  obtain ⟨c', hc', hw'⟩ := h.touched u (by simpa using hne)
  rw [hc] at hc'
  cases hc'
  rw [hw] at hw'
  exact hu (Option.some.inj hw').symm

theorem Tallied.abort (h : Tallied r col v0 st) (ht : st.db.Live t) :
    Tallied r col v0 ⟨st.db.abort t, Function.update st.owed t 0, st.total⟩ := by
  have ha := abort_spec ht.live
  have hrow := ha.rows r
  rw [restored_of_none (h.overlay t)] at hrow
  cases htouch : (st.db.txn t).touches r with
  | false =>
      rw [undoRow_nil_of_untouched htouch] at hrow
      refine h.ended ha.ended (ha.inv h.inv ht) ha.tabs ?_ ?_ ?_ ?_ ?_ (.inr ⟨hrow, rfl, htouch⟩) <;>
        rw [hrow]
      · exact h.isRecord
      · exact h.size
      · exact h.heap
      · exact h.pending
      · exact h.newest
  | true =>
      obtain ⟨c, hc, hw⟩ := h.touched t htouch
      obtain ⟨v, hlast, hdel, hbytes⟩ := h.newest c hc
      have hne : v.data.bytes ≠ [] := by
        intro hnil
        have hsize := h.size
        rw [← hbytes, hnil, List.length_nil] at hsize
        have := h.size_pos
        omega
      have hundo : Db.undoVersionedRow c (st.db.rows r) = { st.db.rows r with
          slot := { (st.db.rows r).slot with data := v.data }
          chain := some { c with
            writer := none, writerData := .empty, writerDel := false, holdWriterToCommit := false } } := by
        simp [Db.undoVersionedRow, hlast, hdel, hne, h.isRecord]
      rw [undoRow_versioned htouch hc hw, hundo] at hrow
      refine h.ended ha.ended (ha.inv h.inv ht) ha.tabs ?_ ?_ ?_ ?_ ?_
        (.inl ⟨?_, h.only hc hw⟩) <;> rw [hrow]
      · exact h.isRecord
      · show v.data.bytes.length = _
        rw [hbytes]
        exact h.size
      · show getWord v.data.bytes col.offset = _
        rw [hbytes]
        exact h.heap
      · exact h.pending
      · intro c' hc'
        cases hc'
        exact ⟨v, hlast, hdel, rfl⟩
      · intro c' hc'
        cases hc'
        rfl

theorem Tallied.commit (h : Tallied r col v0 st) (ht : st.db.Live t)
    (hc : st.db.commit t = some db') :
    Tallied r col v0 ⟨db', Function.update st.owed t 0, st.total + st.owed t⟩ := by
  have hcm := commit_spec ht.live hc
  cases htouch : (st.db.txn t).touches r with
  | false =>
      have hrow := hcm.untouched r htouch
      rw [restored_of_none (h.overlay t)] at hrow
      have hzero : st.total + st.owed t = st.total := by
        rw [h.owed_untouched htouch, add_zero]
      rw [hzero]
      refine h.ended hcm.ended (hcm.inv h.inv ht) hcm.tabs ?_ ?_ ?_ ?_ ?_ (.inr ⟨hrow, rfl, htouch⟩) <;>
        rw [hrow]
      · exact h.isRecord
      · exact h.size
      · exact h.heap
      · exact h.pending
      · exact h.newest
  | true =>
      obtain ⟨c, hchain, hw⟩ := h.touched t htouch
      obtain ⟨-, hdel, -, hlen, hword⟩ := h.writer c t hchain hw
      have hne : c.writerData.bytes ≠ [] := by
        intro hnil
        rw [hnil, List.length_nil] at hlen
        have := h.size_pos
        omega
      obtain ⟨row, hpub, hrow⟩ := hcm.touched r htouch
      rw [restored_of_none (h.overlay t)] at hpub
      have hrow' : ∃ chain, row = { st.db.rows r with
            slot := { (st.db.rows r).slot with data := c.writerData }, chain := chain } ∧
          ∀ c', chain = some c' → c'.writer = none ∧ ∃ v, c'.hist.getLast? = some v ∧
            v.isDeleted = false ∧ v.data = c.writerData := by
        rcases publishRow_cases hpub with ⟨-, hnot⟩ | ⟨c1, slot, hc1, -, hr, hs⟩
        · exact absurd hw (hnot c hchain)
        · rw [hchain] at hc1
          cases hc1
          have hslot : slot = { (st.db.rows r).slot with data := c.writerData } := by
            rcases hs with ⟨hd, -⟩ | ⟨-, hnil, -⟩ | ⟨-, -, -, hs⟩
            · rw [hdel] at hd
              cases hd
            · exact absurd hnil hne
            · exact hs
          refine ⟨_, by rw [hr, hslot], ?_⟩
          intro c' hc'
          have hlast := prune_getLast hc'
          obtain ⟨heq, -⟩ := prune_suffix hc'
          refine ⟨by rw [heq]; rfl, ?_⟩
          rw [hlast, MvccChain.published, List.getLast?_concat]
          exact ⟨_, rfl, hdel, by rw [hdel]; rfl⟩
      obtain ⟨chain, hrow', hchain'⟩ := hrow'
      have hfinal : ∃ chain', db'.rows r = { st.db.rows r with
          slot := { (st.db.rows r).slot with data := c.writerData }, chain := chain' } ∧
          ∀ c', chain' = some c' → c'.writer = none ∧ ∃ v, c'.hist.getLast? = some v ∧
            v.isDeleted = false ∧ v.data = c.writerData := by
        rw [hrow]
        rcases reclaimRow_cases (st.db.watermark t) row with heq | ⟨c1, v, -, -, -, -, -, -, heq⟩
        · exact ⟨chain, by rw [heq, hrow'], hchain'⟩
        · exact ⟨none, by rw [heq, hrow'], fun c' hc' => by cases hc'⟩
      obtain ⟨chain', hdb, hch⟩ := hfinal
      refine h.ended hcm.ended (hcm.inv h.inv ht) hcm.tabs ?_ ?_ ?_ ?_ ?_
        (.inl ⟨?_, h.only hchain hw⟩) <;> rw [hdb]
      · exact h.isRecord
      · exact hlen
      · show getWord c.writerData.bytes col.offset = _
        rw [hword]
        exact BitVec.add_assoc _ _ _
      · exact h.pending
      · intro c' hc'
        obtain ⟨-, v, hlast, hvdel, hdata⟩ := hch c' hc'
        exact ⟨v, hlast, hvdel, by rw [hdata]⟩
      · exact fun c' hc' => (hch c' hc').1

/-! ## Runs -/

theorem Tallied.begin (h : Tallied r col v0 st) (explicit : Bool) (iso : IsolationLevel) :
    Tallied r col v0 { st with db := st.db.begin explicit iso } := by
  have hnew : ∀ u, u = st.db.nextTxnId → st.db.txn u = default := by
    rintro u rfl
    rw [Db.txn, h.inv.fresh _ le_rfl]
    rfl
  refine h.congr (begin_inv h.inv explicit iso) rfl rfl ?_ ?_ <;> intro u
  · by_cases hu : u = st.db.nextTxnId
    · rw [hnew u hu, hu, Db.txn, begin_txns_self]
      rfl
    · rw [Db.txn_congr (begin_txns_ne hu)]
  · by_cases hu : u = st.db.nextTxnId
    · rw [hnew u hu, hu, Db.txn, begin_txns_self]
      rfl
    · rw [Db.txn_congr (begin_txns_ne hu)]

/-- The chain of a held row stays as it is when a write is turned down. -/
theorem Tallied.refused (h : Tallied r col v0 st) (ht : st.db.Live t) (hheld : st.db.held t r = true) :
    Tallied r col v0 { st with db := st.db.touchChain t r } := by
  have hw := touchChain_write st.db t r
  have hchain : ∃ c, (st.db.rows r).chain = some c := by
    cases hc : (st.db.rows r).chain with
    | some c => exact ⟨c, rfl⟩
    | none => simp [Db.held, Db.heldByOther, h.pending, Db.chainOf, hc] at hheld
  obtain ⟨c, hc⟩ := hchain
  have hrow : (st.db.rows r).withChain (st.db.chainOf r) = st.db.rows r := by
    unfold Row.withChain
    rw [Db.chainOf, hc, Option.getD_some, ← hc]
  rw [hrow] at hw
  refine h.congr (hw.inv ht h.inv (h.inv.hist r) fun hs => .inl hs) hw.tabs hw.row_self ?_ ?_
  · exact fun u => by rw [hw.overlay]
  · exact fun u => hw.touches_eq u r

theorem Tallied.increment (h : Tallied r col v0 st) (ht : st.db.Live t)
    (hv : st.db.needsVersioning (st.db.txn t) r.tab = true) {s : SetClause} {c : ColMeta}
    {k : BitVec 32} (hs : s.increments (st.db.tabs r.tab) = some (c, k)) {out : RowResult}
    (hout : Db.updateRow t r.tab [s] st.db r.rid = out) :
    (∀ db', out = .next db' ∨ out = .done db' → db'.Live t ∧ Tallied r col v0
      ⟨db', Function.update st.owed t (st.owed t + s.amount (st.db.tabs r.tab) col), st.total⟩) ∧
    ∀ db', out = .abort db' → db'.Live t ∧ ∃ owed, Tallied r col v0 ⟨db', owed, st.total⟩ ∧
      Function.update owed t 0 = Function.update st.owed t 0 := by
  have hts := (live_iff.1 ht).1
  cases hread : st.db.mvccRead t r with
  | none =>
      have heq : Db.updateRow t r.tab [s] st.db r.rid = .abort st.db := by
        simp [Db.updateRow, hv, hread]
      rw [heq] at hout
      subst hout
      refine ⟨fun db' h' => (by rcases h' with h' | h' <;> cases h'), ?_⟩
      rintro db' h'
      cases h'
      exact ⟨ht, st.owed, h, rfl⟩
  | some visible =>
      rcases updateRow_increment hv hs hread with
        ⟨hheld, heq⟩ | ⟨db1, img, db2, hfree, heq, hw, hw2, hval⟩
      · rw [heq] at hout
        subst hout
        refine ⟨fun db' h' => (by rcases h' with h' | h' <;> cases h'), ?_⟩
        rintro db' h'
        cases h'
        exact ⟨((touchChain_write st.db t r).live_iff hts t).2 ht, st.owed, h.refused ht hheld, rfl⟩
      · have h1 := h.written ht hs hfree hread hw hval
        have ht1 : db1.Live t := (hw.live_iff hts t).2 ht
        have hts1 := (live_iff.1 ht1).1
        have ht2 : db2.Live t := (hw2.live_iff hts1 t).2 ht1
        have h2 := h1.congr (hw2.inv ht1 h1.inv (h1.inv.hist r) fun hs => .inl hs) hw2.tabs
          hw2.row_self (fun u => by rw [hw2.overlay]) (fun u => hw2.touches_eq u r)
        rcases heq with heq | heq <;> rw [heq] at hout <;> subst hout
        · refine ⟨?_, fun db' h' => (by cases h')⟩
          rintro db' (h' | h') <;> cases h'
          exact ⟨ht2, h2⟩
        · refine ⟨fun db' h' => (by rcases h' with h' | h' <;> cases h'), ?_⟩
          rintro db' h'
          cases h'
          exact ⟨ht2, _, h2, Function.update_idem _ _ _⟩

theorem incStep_tallied {op : IncOp} {st' : IncState} (h : Tallied r col v0 st)
    (hstep : incStep r col st op = some st') : Tallied r col v0 st' := by
  cases op with
  | begin explicit iso =>
      cases hstep
      exact h.begin explicit iso
  | increment t s =>
      obtain ⟨⟨ht, hv, hs⟩, hmatch⟩ := Option.ite_none_right_eq_some.1 hstep
      obtain ⟨⟨c, k⟩, hs⟩ := Option.isSome_iff_exists.1 hs
      obtain ⟨hnext, habort⟩ := h.increment ht hv hs rfl
      cases hout : Db.updateRow t r.tab [s] st.db r.rid with
      | next db1 =>
          rw [hout] at hmatch
          cases hmatch
          obtain ⟨ht1, h1⟩ := hnext db1 (.inl hout)
          exact h1.release ht1
      | done db1 =>
          rw [hout] at hmatch
          cases hmatch
          obtain ⟨ht1, h1⟩ := hnext db1 (.inr hout)
          exact h1.release ht1
      | abort db1 =>
          rw [hout] at hmatch
          cases hmatch
          obtain ⟨ht1, owed, h1, howed⟩ := habort db1 hout
          have h2 := h1.abort ht1
          dsimp only at h2
          rwa [howed] at h2
      | stop =>
          rw [hout] at hmatch
          cases hmatch
  | commit t =>
      obtain ⟨ht, hmap⟩ := Option.ite_none_right_eq_some.1 hstep
      obtain ⟨db1, hc, rfl⟩ := Option.map_eq_some_iff.1 hmap
      exact h.commit ht hc
  | abort t =>
      obtain ⟨ht, heq⟩ := Option.ite_none_right_eq_some.1 hstep
      cases heq
      exact h.abort ht

theorem boot_tallied (tabs : TabName → TabMeta) (files : TabName → RmFileHdr) (heap : RowId → Slot)
    (index : IndexId → IndexMap) (hcol : col ∈ (tabs r.tab).cols ∧ col.len = 4)
    (hrec : (heap r).isRecord = true)
    (hlen : (heap r).data.bytes.length = (tabs r.tab).recordSize) :
    Tallied r col (getWord (heap r).data.bytes col.offset)
      ⟨Db.boot tabs files heap index, fun _ => 0, 0⟩ where
  inv := boot_inv tabs files heap index
  column := hcol
  isRecord := hrec
  size := hlen
  heap := (add_zero _).symm
  pending := rfl
  overlay := fun _ => rfl
  touched := fun u hu => by cases hu
  owed := fun u hu => absurd rfl hu
  newest := fun c hc => by cases hc
  writer := fun c u hc => by cases hc

theorem Tallied.newestCommitted (h : Tallied r col v0 st) :
    (st.db.newestCommitted r).bytes = (st.db.rows r).slot.data.bytes := by
  unfold Db.newestCommitted
  cases hc : (st.db.rows r).chain with
  | none => rfl
  | some c =>
      obtain ⟨v, hlast, -, hbytes⟩ := h.newest c hc
      simp only [Option.bind_some, hlast, Option.map_some, Option.getD_some]
      exact hbytes

/-- No increment is lost: after any run the heap and the newest committed version hold the
first value plus what the committed transactions have added, modulo `2^32`. -/
theorem run_increments (tabs : TabName → TabMeta) (files : TabName → RmFileHdr)
    (heap : RowId → Slot) (index : IndexId → IndexMap) (r : RowId) (col : ColMeta)
    (hcol : col ∈ (tabs r.tab).cols ∧ col.len = 4) (hrec : (heap r).isRecord = true)
    (hlen : (heap r).data.bytes.length = (tabs r.tab).recordSize) (ops : List IncOp) (st : IncState)
    (h : run (incStep r col) ⟨Db.boot tabs files heap index, fun _ => 0, 0⟩ ops = some st) :
    getWord (st.db.rows r).slot.data.bytes col.offset =
        getWord (heap r).data.bytes col.offset + st.total ∧
      getWord (st.db.newestCommitted r).bytes col.offset =
        getWord (heap r).data.bytes col.offset + st.total := by
  have ht := run_invariant (fun _ _ _ ho hs => incStep_tallied ho hs) ops _ st
    (boot_tallied tabs files heap index hcol hrec hlen) h
  rw [ht.newestCommitted]
  exact ⟨ht.heap, ht.heap⟩

/-- From 10: transaction 0 adds 5 and takes 1, transaction 1 finds the row held and is
aborted, an autocommit statement with an older snapshot adds 3. -/
theorem run_increments_seventeen : ∃ st, run (incStep ⟨"t", ⟨1, 0⟩⟩ ⟨"a", .int, 4, 0⟩)
    ⟨Db.boot (fun _ => ⟨[⟨"a", .int, 4, 0⟩], [], by decide, by decide⟩) (fun _ => ⟨2, 4⟩)
      (fun _ => ⟨true, ⟨[10, 0, 0, 0], none⟩⟩) (fun _ => []), fun _ => 0, 0⟩
    [.begin true .snapshotIsolation, .begin true .serializable, .begin false .snapshotIsolation,
      .increment 0 { lhs := "a", isArith := true, rhsCol := "a", intVal := 5 },
      .increment 1 { lhs := "a", isArith := true, rhsCol := "a", intVal := 100 },
      .increment 0 { lhs := "a", isArith := true, rhsCol := "a", arithNeg := true, intVal := 1 },
      .commit 0, .increment 2 { lhs := "a", isArith := true, rhsCol := "a", intVal := 3 },
      .commit 2] = some st ∧ st.total = 7 ∧
    getWord (st.db.rows ⟨"t", ⟨1, 0⟩⟩).slot.data.bytes 0 = 17 ∧
    getWord (st.db.newestCommitted ⟨"t", ⟨1, 0⟩⟩).bytes 0 = 17 := by
  have hrun : ((run (incStep ⟨"t", ⟨1, 0⟩⟩ ⟨"a", .int, 4, 0⟩)
      ⟨Db.boot (fun _ => ⟨[⟨"a", .int, 4, 0⟩], [], by decide, by decide⟩) (fun _ => ⟨2, 4⟩)
        (fun _ => ⟨true, ⟨[10, 0, 0, 0], none⟩⟩) (fun _ => []), fun _ => 0, 0⟩
      [.begin true .snapshotIsolation, .begin true .serializable, .begin false .snapshotIsolation,
        .increment 0 { lhs := "a", isArith := true, rhsCol := "a", intVal := 5 },
        .increment 1 { lhs := "a", isArith := true, rhsCol := "a", intVal := 100 },
        .increment 0 { lhs := "a", isArith := true, rhsCol := "a", arithNeg := true, intVal := 1 },
        .commit 0, .increment 2 { lhs := "a", isArith := true, rhsCol := "a", intVal := 3 },
        .commit 2]).map IncState.total) = some 7 := by decide +kernel
  obtain ⟨st, hst, htotal⟩ := Option.map_eq_some_iff.1 hrun
  have h := run_increments _ _ _ _ ⟨"t", ⟨1, 0⟩⟩ ⟨"a", .int, 4, 0⟩ ⟨by decide, rfl⟩ rfl (by decide) _ st hst
  rw [htotal] at h
  exact ⟨st, hst, htotal, h.1, h.2⟩

end Rmdb.Txn
