import Rmdb.Mvcc.Clock

/-!
# What a snapshot sees of one row

`RowOk S now row h`: at the timestamps `S` the chain or the heap of the row shows what the committed
versions `h` show, whatever has been pruned.  Writes, publishing, reclaiming and undoing keep it.
-/

namespace Rmdb.Txn

open Db (visibleVer verImage)

/-- What the committed versions show at a timestamp. -/
def view (h : List MvccVer) (ts : Ts) : Option Image := verImage (visibleVer h ts)

/-! ## Visible versions -/

theorem verImage_data {v : MvccVer} (h : v.isDeleted = false) : verImage (some v) = some v.data := by
  show (if v.isDeleted then none else some v.data) = _
  rw [h]
  rfl

theorem verImage_tomb {v : MvccVer} (h : v.isDeleted = true) : verImage (some v) = none := by
  show (if v.isDeleted then none else some v.data) = _
  rw [h]
  rfl

theorem visibleVer_append (h : List MvccVer) (v : MvccVer) (ts : Ts) :
    visibleVer (h ++ [v]) ts = if v.commitTs ≤ ts then some v else visibleVer h ts := by
  unfold visibleVer
  rw [List.reverse_append, List.reverse_singleton, List.singleton_append, List.find?_cons]
  split
  · rename_i hv
    rw [if_pos (of_decide_eq_true hv)]
  · rename_i hv
    rw [if_neg (of_decide_eq_false hv)]

theorem visibleVer_last {h : List MvccVer} {v : MvccVer} {ts : Ts} (hv : h.getLast? = some v)
    (hle : v.commitTs ≤ ts) : visibleVer h ts = some v := by
  obtain ⟨h', rfl⟩ := List.getLast?_eq_some_iff.1 hv
  rw [visibleVer_append, if_pos hle]

/-- When every version is old enough the newest one shows. -/
theorem visibleVer_all {h : List MvccVer} {ts : Ts} (hall : ∀ v ∈ h, v.commitTs ≤ ts) :
    visibleVer h ts = h.getLast? := by
  cases hv : h.getLast? with
  | none =>
      rw [List.getLast?_eq_none_iff.1 hv]
      rfl
  | some v => exact visibleVer_last hv (hall v (List.mem_of_getLast? hv))

/-- Versions newer than the timestamp do not show. -/
theorem view_append {h vs : List MvccVer} {ts : Ts} (hvs : ∀ v ∈ vs, ts < v.commitTs) :
    view (h ++ vs) ts = view h ts := by
  unfold view visibleVer
  rw [List.reverse_append, List.find?_append]
  have hnone : vs.reverse.find? (fun v => decide (v.commitTs ≤ ts)) = none := by
    rw [List.find?_eq_none]
    intro v hv hle
    exact absurd (of_decide_eq_true hle) (Nat.not_le.2 (hvs v (List.mem_reverse.1 hv)))
  rw [hnone]
  rfl

theorem chainRead_eq {c : MvccChain} {me : TxnId} (h : c.writer ≠ some me) (ts : Ts) :
    Db.chainRead c me ts = view c.hist ts := by
  unfold Db.chainRead
  rw [if_neg h]
  split
  · rename_i hlast
    obtain ⟨-, hany⟩ := hlast
    obtain ⟨v, hv, hle⟩ := Option.any_eq_true _ _ |>.1 hany
    unfold view
    rw [visibleVer_last hv (of_decide_eq_true hle), hv]
  · rfl

/-- The versions that pruning drops show at no timestamp from the watermark on. -/
theorem pruneHist_visible {h : List MvccVer} {wm ts : Ts} (hle : wm ≤ ts) :
    visibleVer (Db.pruneHist h wm) ts = visibleVer h ts := by
  unfold Db.pruneHist
  split
  · rfl
  · rename_i i hi
    obtain ⟨hlt, hp, -⟩ := List.findIdx?_eq_some_iff_getElem.1 hi
    rw [List.length_reverse] at hlt
    have hrev : (h.drop (h.length - 1 - i)).reverse = h.reverse.take (i + 1) := by
      rw [List.reverse_drop]
      congr 1
      omega
    unfold visibleVer
    rw [hrev]
    have hsplit : h.reverse = h.reverse.take (i + 1) ++ h.reverse.drop (i + 1) :=
      (List.take_append_drop _ _).symm
    conv_rhs => rw [hsplit, List.find?_append]
    -- the version that the watermark shows is among those kept
    have hsome : ((h.reverse.take (i + 1)).find? fun v => decide (v.commitTs ≤ ts)).isSome := by
      rw [List.find?_isSome]
      have hlen : i < h.reverse.length := by rwa [List.length_reverse]
      refine ⟨h.reverse[i], ?_, ?_⟩
      · exact List.mem_take_iff_getElem.2 ⟨i, by omega, rfl⟩
      · exact decide_eq_true (le_trans (of_decide_eq_true hp) hle)
    obtain ⟨v, hv⟩ := Option.isSome_iff_exists.1 hsome
    rw [hv]
    rfl

/-! ## One row -/

structure RowOk (S : Ts → Prop) (now : Ts) (row : Row) (h : List MvccVer) : Prop where
  sees : ∀ ts, S ts → rowView row ts = view h ts
  chain : ∀ c, row.chain = some c → ∀ v ∈ c.hist, v.commitTs ≤ now
  past : ∀ v ∈ h, v.commitTs ≤ now
  heap : ∀ v, h.getLast? = some v → v.isDeleted = false → row.slot = ⟨true, v.data⟩
  tomb : ∀ c v, row.chain = some c → c.hist.getLast? = some v → v.isDeleted = true →
    row.slot.isRecord = false

/-- The newest version in the chain of a row is newer than the timestamp, or there is none. -/
def Row.Late (row : Row) (ts : Ts) : Prop :=
  ∃ c, row.chain = some c ∧ ∀ v, c.hist.getLast? = some v → ts < v.commitTs

variable {S S' : Ts → Prop} {now now' wm cts : Ts} {row row' : Row} {h : List MvccVer} {t : TxnId}

theorem rowView_chain {c : MvccChain} (hc : row.chain = some c) (ts : Ts) :
    rowView row ts = view c.hist ts := by
  unfold rowView
  rw [hc]
  rfl

theorem rowView_heap (hc : row.chain = none) (ts : Ts) :
    rowView row ts = if row.slot.isRecord then some row.slot.data else none := by
  unfold rowView
  rw [hc]

theorem RowOk.mono (hr : RowOk S now row h) (hS : ∀ ts, S' ts → S ts) (hle : now ≤ now') :
    RowOk S' now' row h where
  sees := fun ts hts => hr.sees ts (hS ts hts)
  chain := fun c hc v hv => le_trans (hr.chain c hc v hv) hle
  past := fun v hv => le_trans (hr.past v hv) hle
  heap := hr.heap
  tomb := hr.tomb

/-- A row that nobody has written since the server started. -/
theorem RowOk.start (hc : row.chain = none) : RowOk S now row (Latched.baseHistory row.slot) := by
  have hbase : ∀ v ∈ Latched.baseHistory row.slot,
      row.slot.isRecord = true ∧ v = ⟨row.slot.data, 0, false, none⟩ := by
    intro v hv
    unfold Latched.baseHistory at hv
    split at hv
    · rename_i hrec
      exact ⟨hrec, List.mem_singleton.1 hv⟩
    · cases hv
  refine ⟨?_, fun c hc' => ?_, ?_, ?_, fun c v hc' => ?_⟩
  · intro ts _
    rw [rowView_heap hc]
    unfold Latched.baseHistory
    split <;> rfl
  · rw [hc] at hc'
    cases hc'
  · intro v hv
    rw [(hbase v hv).2]
    exact Nat.zero_le _
  · intro v hv _
    obtain ⟨hrec, heq⟩ := hbase v (List.mem_of_getLast? hv)
    rw [heq, ← hrec]
  · rw [hc] at hc'
    cases hc'

/-- What everybody will see is in the heap. -/
theorem RowOk.slot_of_view (hr : RowOk S now row h) {img : Image} (hv : view h now = some img) :
    row.slot = ⟨true, img⟩ := by
  unfold view at hv
  rw [visibleVer_all hr.past] at hv
  cases hlast : h.getLast? with
  | none =>
      rw [hlast] at hv
      cases hv
  | some v =>
      rw [hlast] at hv
      cases hdel : v.isDeleted with
      | true =>
          rw [verImage_tomb hdel] at hv
          cases hv
      | false =>
          rw [verImage_data hdel] at hv
          rw [hr.heap v hlast hdel, Option.some.inj hv]

/-- The chain moves its uncommitted write. -/
theorem RowOk.same (hr : RowOk S now row h) {c c' : MvccChain} (hslot : row'.slot = row.slot)
    (hc : row.chain = some c) (hc' : row'.chain = some c') (hhist : c'.hist = c.hist) :
    RowOk S now row' h where
  sees := by
    intro ts hts
    rw [rowView_chain hc', hhist, ← rowView_chain hc]
    exact hr.sees ts hts
  chain := by
    intro c2 hc2
    rw [hc'] at hc2
    cases hc2
    rw [hhist]
    exact hr.chain c hc
  past := hr.past
  heap := by
    rw [hslot]
    exact hr.heap
  tomb := by
    intro c2 v hc2 hv
    rw [hc'] at hc2
    cases hc2
    rw [hslot]
    exact hr.tomb c v hc (by rw [← hhist]; exact hv)

theorem Row.Late.same {ts : Ts} {c c' : MvccChain} (hl : row.Late ts) (hc : row.chain = some c)
    (hc' : row'.chain = some c') (hhist : c'.hist = c.hist) : row'.Late ts := by
  obtain ⟨c2, hc2, hlate⟩ := hl
  rw [hc] at hc2
  cases hc2
  exact ⟨c', hc', by rw [hhist]; exact hlate⟩

/-- A row without a chain gets the heap's bytes as its base version. -/
theorem RowOk.base (hr : RowOk S now row h) {c : MvccChain} (hslot : row'.slot = row.slot)
    (hrec : row.slot.isRecord = true) (hnone : row.chain = none) (hc : row'.chain = some c)
    (hhist : c.hist = [⟨row.slot.data, 0, false, none⟩]) : RowOk S now row' h where
  sees := by
    intro ts hts
    rw [rowView_chain hc, hhist, ← hr.sees ts hts, rowView_heap hnone, if_pos hrec]
    rfl
  chain := by
    intro c2 hc2 v hv
    rw [hc] at hc2
    cases hc2
    rw [hhist] at hv
    rw [List.mem_singleton.1 hv]
    exact Nat.zero_le _
  past := hr.past
  heap := by
    rw [hslot]
    exact hr.heap
  tomb := by
    intro c2 v hc2 hv hdel
    rw [hc] at hc2
    cases hc2
    rw [hhist, List.getLast?_singleton] at hv
    cases hv
    cases hdel

/-- An insert fills the slot; no snapshot saw a version of it. -/
theorem RowOk.insert (hr : RowOk S now row h) {c : MvccChain} (hfree : row.slot.isRecord = false)
    (hS : ∀ ts, S ts → now ≤ ts ∨ rowView row ts = none) (hc : row'.chain = some c)
    (hhist : c.hist = []) : RowOk S now row' h where
  sees := by
    intro ts hts
    rw [rowView_chain hc, hhist]
    rcases hS ts hts with hle | hnone
    · have hall : ∀ v ∈ h, v.commitTs ≤ ts := fun v hv => le_trans (hr.past v hv) hle
      unfold view
      rw [visibleVer_all hall]
      cases hlast : h.getLast? with
      | none => rfl
      | some v =>
          cases hdel : v.isDeleted with
          | true =>
              rw [verImage_tomb hdel]
              rfl
          | false =>
              rw [hr.heap v hlast hdel] at hfree
              cases hfree
    · rw [← hr.sees ts hts, hnone]
      rfl
  chain := by
    intro c2 hc2 v hv
    rw [hc] at hc2
    cases hc2
    rw [hhist] at hv
    cases hv
  past := hr.past
  heap := by
    intro v hlast hdel
    rw [hr.heap v hlast hdel] at hfree
    cases hfree
  tomb := by
    intro c2 v hc2 hv
    rw [hc] at hc2
    cases hc2
    rw [hhist] at hv
    cases hv

theorem Row.Late.insert {ts : Ts} {c : MvccChain} (hc : row'.chain = some c) (hhist : c.hist = []) :
    row'.Late ts := by
  refine ⟨c, hc, fun v hv => ?_⟩
  rw [hhist] at hv
  cases hv

/-! ## Publishing and reclaiming -/

/-- Pruning drops what no snapshot shows; the whole chain goes when all see its newest version. -/
theorem prune_visible (wm : Ts) {c : MvccChain} {v : MvccVer} (hlast : c.hist.getLast? = some v)
    (hv : v.commitTs = cts) : (Db.pruneMvccAfterCommit c wm cts = none ∧ cts ≤ wm) ∨
      ∃ c', Db.pruneMvccAfterCommit c wm cts = some c' ∧
        ∀ ts, wm ≤ ts → visibleVer c'.hist ts = visibleVer c.hist ts := by
  unfold Db.pruneMvccAfterCommit
  dsimp only
  split
  · split
    · rename_i hwhole
      simp only [Bool.and_eq_true, decide_eq_true_eq] at hwhole
      exact .inl ⟨rfl, hwhole.2⟩
    · exact .inr ⟨c, rfl, fun _ _ => rfl⟩
  · split
    · rename_i hwhole
      simp only [Bool.and_eq_true, decide_eq_true_eq] at hwhole
      split
      · exact .inl ⟨rfl, hwhole.2⟩
      · refine .inr ⟨_, rfl, fun ts hts => ?_⟩
        have hne : c.hist ≠ [] := by
          intro hnil
          rw [hnil] at hlast
          cases hlast
        obtain ⟨front, hfront⟩ := pruneHist_suffix c.hist wm
        have hlast' : (Db.pruneHist c.hist wm).getLast? = some v := by
          rw [← List.getLast?_append_of_ne_nil front (pruneHist_ne_nil wm hne), hfront, hlast]
        have hle : v.commitTs ≤ ts := by
          rw [hv]
          exact le_trans hwhole.2 hts
        rw [hlast', visibleVer_last hlast hle]
        exact visibleVer_last rfl hle
    · exact .inr ⟨_, rfl, fun ts hts => pruneHist_visible hts⟩

theorem publishedVer_of {c : MvccChain} (hc : row.chain = some c) (hw : c.writer = some t) :
    publishedVer t cts row = [⟨if c.writerDel then .empty else c.writerData, cts, c.writerDel, some t⟩] := by
  unfold publishedVer
  rw [hc]
  exact if_pos hw

theorem publishedVer_nil (hw : row.writer ≠ some t) : publishedVer t cts row = [] := by
  unfold publishedVer
  split
  · rfl
  · rename_i c hc
    rw [if_neg]
    rwa [Row.writer_chain hc] at hw

theorem RowOk.publish (hr : RowOk S now row h) (hwm : ∀ ts, S ts → wm ≤ ts) (hnow : cts ≤ now)
    (hdata : ∀ c, row.chain = some c → c.writer = some t → c.writerDel = true ∨ c.writerData.bytes ≠ [])
    (hp : Db.publishRow t cts wm row = some row') :
    RowOk S now row' (h ++ publishedVer t cts row) := by
  rcases publishRow_cases hp with ⟨rfl, hno⟩ | ⟨c, slot, hc, hw, rfl, hslot⟩
  · rw [publishedVer_nil, List.append_nil]
    · exact hr
    · intro hwr
      obtain ⟨c, hc, hcw⟩ := Row.writer_some.1 hwr
      exact hno c hc hcw
  · rw [publishedVer_of hc hw]
    generalize hver : (⟨if c.writerDel then .empty else c.writerData, cts, c.writerDel, some t⟩ : MvccVer) = v
    have hvts : v.commitTs = cts := by rw [← hver]
    have hhist : (c.published t cts).hist = c.hist ++ [v] := by
      rw [← hver]
      rfl
    have hlast : (c.published t cts).hist.getLast? = some v := by
      rw [hhist, List.getLast?_concat]
    have hview : ∀ ts, S ts → view (c.published t cts).hist ts = view (h ++ [v]) ts := by
      intro ts hts
      have hsees := hr.sees ts hts
      rw [rowView_chain hc] at hsees
      unfold view at hsees ⊢
      rw [hhist, visibleVer_append, visibleVer_append]
      split
      · rfl
      · exact hsees
    have hheap : v.isDeleted = false → slot = ⟨true, v.data⟩ := by
      intro hdel
      rw [← hver] at hdel ⊢
      dsimp only at hdel ⊢
      rcases hslot with ⟨hd, -⟩ | ⟨hd, hb, -⟩ | ⟨hd, -, hrec, rfl⟩
      · rw [hdel] at hd
        cases hd
      · rcases hdata c hc hw with hd' | hne
        · rw [hdel] at hd'
          cases hd'
        · exact absurd hb hne
      · rw [if_neg (by rw [hd]; exact Bool.false_ne_true), ← hrec]
    have htomb : v.isDeleted = true → slot.isRecord = false := by
      intro hdel
      rw [← hver] at hdel
      dsimp only at hdel
      rcases hslot with ⟨-, rfl⟩ | ⟨hd, -⟩ | ⟨hd, -⟩
      · rfl
      · rw [hdel] at hd
        cases hd
      · rw [hdel] at hd
        cases hd
    refine ⟨?_, ?_, ?_, ?_, ?_⟩
    · intro ts hts
      rw [← hview ts hts]
      rcases prune_visible wm hlast hvts with ⟨hnone, hle⟩ | ⟨c', hsome, hvis⟩
      · rw [rowView_heap hnone]
        have hcts : v.commitTs ≤ ts := by
          rw [hvts]
          exact le_trans hle (hwm ts hts)
        unfold view
        rw [visibleVer_last hlast hcts]
        cases hdel : v.isDeleted with
        | true =>
            rw [htomb hdel, verImage_tomb hdel]
            rfl
        | false =>
            rw [hheap hdel, verImage_data hdel]
            rfl
      · rw [rowView_chain hsome]
        unfold view
        rw [hvis ts (hwm ts hts)]
    · intro c' hc' w hmem
      obtain ⟨-, hsuf⟩ := prune_suffix hc'
      have hmem' := hsuf.subset hmem
      rw [hhist] at hmem'
      rcases List.mem_append.1 hmem' with hmem' | hmem'
      · exact hr.chain c hc w hmem'
      · rw [List.mem_singleton.1 hmem', hvts]
        exact hnow
    · intro w hmem
      rcases List.mem_append.1 hmem with hmem | hmem
      · exact hr.past w hmem
      · rw [List.mem_singleton.1 hmem, hvts]
        exact hnow
    · intro w hlw hdel
      rw [List.getLast?_concat] at hlw
      cases hlw
      exact hheap hdel
    · intro c' w hc' hlw hdel
      rw [prune_getLast hc', hlast] at hlw
      cases hlw
      exact htomb hdel

/-- A published version is newer than the snapshots that are under the watermark. -/
theorem Row.Late.publish {ts : Ts} (hl : row.Late ts) (hwm : wm ≤ ts) (hts : ts < cts)
    (hp : Db.publishRow t cts wm row = some row') : row'.Late ts := by
  rcases publishRow_cases hp with ⟨rfl, -⟩ | ⟨c, slot, hc, hw, rfl, -⟩
  · exact hl
  · have hlast : (c.published t cts).hist.getLast? =
        some ⟨if c.writerDel then .empty else c.writerData, cts, c.writerDel, some t⟩ :=
      List.getLast?_concat
    rcases prune_visible wm hlast rfl with ⟨-, hle⟩ | ⟨c', hsome, -⟩
    · exact absurd (le_trans hle hwm) (Nat.not_le.2 hts)
    · refine ⟨c', hsome, fun v hv => ?_⟩
      rw [prune_getLast hsome, hlast] at hv
      rw [← Option.some.inj hv]
      exact hts

theorem RowOk.reclaim (hr : RowOk S now row h) (hwm : ∀ ts, S ts → wm ≤ ts) (hnow : S now) :
    RowOk S now (Db.reclaimRow wm row) h := by
  rcases reclaimRow_cases wm row with heq | ⟨c, v, hc, -, hhist, -, hdel, hle, heq⟩
  · rw [heq]
    exact hr
  · rw [heq]
    have hone : ∀ ts, wm ≤ ts → view c.hist ts = some v.data := by
      intro ts hts
      unfold view
      rw [visibleVer_last (by rw [hhist]; rfl) (le_trans hle hts), verImage_data hdel]
    have hslot : row.slot = ⟨true, v.data⟩ := by
      refine hr.slot_of_view ?_
      rw [← hr.sees now hnow, rowView_chain hc]
      exact hone now (hwm now hnow)
    refine ⟨?_, fun c hc => (by cases hc), hr.past, hr.heap, fun c v hc => by cases hc⟩
    intro ts hts
    rw [← hr.sees ts hts, rowView_chain hc, hone ts (hwm ts hts), rowView_heap rfl]
    show (if row.slot.isRecord then some row.slot.data else none) = _
    rw [hslot]
    rfl

theorem Row.Late.reclaim {ts : Ts} (hl : row.Late ts) (hwm : wm ≤ ts) :
    (Db.reclaimRow wm row).Late ts := by
  rcases reclaimRow_cases wm row with heq | ⟨c, v, hc, -, hhist, -, -, hle, heq⟩
  · rw [heq]
    exact hl
  · obtain ⟨c', hc', hlate⟩ := hl
    rw [hc] at hc'
    cases hc'
    exact absurd (le_trans hle hwm) (Nat.not_le.2 (hlate v (by rw [hhist]; rfl)))

/-- Undoing puts back what the heap has. -/
theorem RowOk.undo (hr : RowOk S now row h) {c : MvccChain} (hc : row.chain = some c) (hnow : S now) :
    RowOk S now (Db.undoVersionedRow c row) h := by
  refine hr.same ?_ hc rfl rfl
  unfold Db.undoVersionedRow
  dsimp only
  split
  · rfl
  · rename_i last hlast
    split
    · rename_i hcond
      have hv : view h now = some last.data := by
        rw [← hr.sees now hnow, rowView_chain hc]
        unfold view
        rw [visibleVer_last hlast (hr.chain c hc last (List.mem_of_getLast? hlast)),
          verImage_data (by simpa using hcond.1)]
      rw [hr.slot_of_view hv]
    · rfl

end Rmdb.Txn
