import Rmdb.Mvcc.GateInv

/-!
# The read gate is sound

Begin, the versioned writes, `release_statement_writes` and `abort` keep `GateInv`, and so does
every run.  A write counts its transaction on the table before it works on the chain; one that is
turned down leaves the chain to whom it had, but for a column patch, whose transaction aborts.
-/

namespace Rmdb.Txn

open Rmdb.Lib (run run_invariant)

namespace Gated

variable {st st' : Gated} {t u : TxnId} {r : RowId}

/-! ## Begin, release and abort -/

theorem not_publishing (hat : st.at_ t = .outside) (cts wm : Ts) (todo : List WriteRecord)
    (hp : st.at_ t = .publishing cts wm todo) : False := by
  rw [hat] at hp
  cases hp

theorem begin_inv' (h : GateInv st) (explicit : Bool) (iso : IsolationLevel) :
    GateInv { st with db := st.db.begin explicit iso } := by
  have hself : (st.db.begin explicit iso).txn st.db.nextTxnId =
      { txnMode := explicit, isolation := iso, readTs := st.db.lastCommitTs } := by
    rw [Db.txn, begin_txns_self, Option.getD_some]
  have hlive : ∀ u, u ≠ st.db.nextTxnId → ((st.db.begin explicit iso).Live u ↔ st.db.Live u) := by
    intro u hu
    unfold Db.Live
    rw [begin_txns_ne hu]
  have hout : st.at_ st.db.nextTxnId = .outside := by
    by_contra hne
    exact absurd (lt_of_live h.fresh (h.busy _ hne).1) (lt_irrefl _)
  refine ⟨?_, ?_, ?_, ?_, ?_, ?_⟩
  · intro u hu
    have hu' : st.db.nextTxnId < u := Nat.lt_of_succ_le hu
    show (st.db.begin explicit iso).txns u = none
    rw [begin_txns_ne (Nat.ne_of_gt hu')]
    exact h.fresh u (Nat.le_of_lt hu')
  · exact fun r u hu => Nat.lt_succ_of_lt (h.known r u hu)
  · intro u hu
    have hne : u ≠ st.db.nextTxnId := fun heq => hu (heq ▸ hout)
    exact ⟨(hlive u hne).2 (h.busy u hu).1, (h.busy u hu).2⟩
  · intro tab
    show _ = ((Finset.range (st.db.nextTxnId + 1)).filter fun u => (st.db.begin explicit iso).Live u ∧
      tab ∈ ((st.db.begin explicit iso).txn u).writtenTabs).card
    rw [card_begin (q := fun u => st.db.Live u ∧ tab ∈ (st.db.txn u).writtenTabs), ← h.count, hself]
    · simp
      rfl
    · intro u hu
      rw [hlive u (Nat.ne_of_lt hu), Db.txn_congr (begin_txns_ne (Nat.ne_of_lt hu))]
  · intro u hl
    by_cases hu : u = st.db.nextTxnId
    · subst hu
      refine ⟨?_, ?_, ?_, ?_, ?_⟩
      · intro r hr
        change (((st.db.begin explicit iso).txn _).overlay r).isSome at hr
        rw [hself] at hr
        cases hr
      · intro _ r hr
        change ((st.db.begin explicit iso).txn _).touches r = true at hr
        rw [hself] at hr
        cases hr
      · intro _
        show ((st.db.begin explicit iso).txn _).writtenTabs = []
        rw [hself]
      · exact fun r hr => absurd (h.known r _ (.inl hr)) (lt_irrefl _)
      · exact fun r hr => absurd (h.known r _ (.inr hr)) (lt_irrefl _)
    · have hold := h.holds u ((hlive u hu).1 hl)
      have htxn : (st.db.begin explicit iso).txn u = st.db.txn u := Db.txn_congr (begin_txns_ne hu)
      refine ⟨?_, ?_, ?_, ?_, ?_⟩
      · intro r
        show (((st.db.begin explicit iso).txn u).overlay r).isSome → _
        rw [htxn]
        exact hold.overlay r
      · intro hn r
        show ((st.db.begin explicit iso).txn u).touches r = true →
          r.tab ∈ ((st.db.begin explicit iso).txn u).writtenTabs
        rw [htxn]
        exact hold.noted hn r
      · intro hc
        show ((st.db.begin explicit iso).txn u).writtenTabs = []
        rw [htxn]
        exact hold.counted hc
      · intro r hr
        show r.tab ∈ ((st.db.begin explicit iso).txn u).writtenTabs ∧
          (u ∉ st.refused → ((st.db.begin explicit iso).txn u).touches r = true) ∧ st.Unpublished u r
        rw [htxn]
        exact hold.writer r hr
      · intro r hr
        show (((st.db.begin explicit iso).txn u).overlay r).isSome ∧ st.Unrestored u r
        rw [htxn]
        exact hold.pending r hr
  · intro r c hc v hv
    rcases h.shown r c hc v hv with hle | ⟨u, cts, wm, todo, hl, hmem, hat, hle⟩
    · exact .inl hle
    · have hne : u ≠ st.db.nextTxnId := fun heq => not_publishing hout cts wm todo (heq ▸ hat)
      refine .inr ⟨u, cts, wm, todo, (hlive u hne).2 hl, ?_, hat, hle⟩
      show r.tab ∈ ((st.db.begin explicit iso).txn u).writtenTabs
      rw [Db.txn_congr (begin_txns_ne hne)]
      exact hmem

/-- A step of `t` outside `commit`. -/
theorem stepBy_db {db' : Db} {R : List TxnId} (htxns : ∀ u, u ≠ t → db'.txns u = st.db.txns u)
    (hnext : db'.nextTxnId = st.db.nextTxnId) (hR : ∀ u, u ≠ t → (u ∈ R ↔ u ∈ st.refused)) :
    StepBy st { st with db := db', refused := R } t where
  txns := htxns
  at_ := fun _ _ => rfl
  refused := hR
  next := hnext

theorem release_inv' (h : GateInv st) (hr : st.Ready t) :
    GateInv { st with db := st.db.releaseStatementWrites t } := by
  obtain ⟨ht, hat⟩ := hr
  obtain ⟨hnext, -⟩ := release_fields st.db t
  have hts := (live_iff.1 ht).1
  have hact : (st.db.releaseStatementWrites t).writeActivity = st.db.writeActivity :=
    congrArg Tracks.writeActivity (release_tracks st.db t)
  have htabs : ((st.db.releaseStatementWrites t).txn t).writtenTabs = (st.db.txn t).writtenTabs :=
    release_proj Transaction.writtenTabs (fun _ _ => rfl) t
  have htouches : ∀ r, ((st.db.releaseStatementWrites t).txn t).touches r = (st.db.txn t).touches r :=
    fun r => release_proj (fun x => x.touches r) (fun _ _ => rfl) t
  have hwriter : ∀ r u, ((st.db.releaseStatementWrites t).rows r).writer = some u →
      (st.db.rows r).writer = some u := by
    intro r u hu
    rcases release_row st.db t r with ⟨heq, -⟩ | ⟨c, -, -, -, -, heq, -⟩
    · rwa [heq] at hu
    · rw [heq] at hu
      cases hu
  have hold := h.holds t ht
  refine h.of_step (stepBy_db (R := st.refused) (fun u hu => release_txns_ne hu) hnext
    (fun _ _ => Iff.rfl)) ht (fun hne => absurd hat hne) ?_ (fun r u _ => hwriter r u) ?_ ?_ ?_ ?_ ?_
  · intro tab
    show ((st.db.releaseStatementWrites t).writeActivity tab).writers + _ = _ +
      if (st.db.releaseStatementWrites t).Live t ∧
        tab ∈ ((st.db.releaseStatementWrites t).txn t).writtenTabs then 1 else 0
    rw [hact, htabs]
    simp only [(release_live_iff hts t).2 ht, true_and]
  · intro r u hne hu
    change ((st.db.releaseStatementWrites t).rows r).pending = some u at hu
    rcases release_row st.db t r with ⟨heq, -⟩ | ⟨c, -, -, -, -, heq, -⟩
    · rwa [heq] at hu
    · rw [heq] at hu
      exact absurd (Option.some.inj hu).symm hne
  · intro _
    refine ⟨?_, ?_, ?_, ?_, ?_⟩
    · intro r
      show (((st.db.releaseStatementWrites t).txn t).overlay r).isSome →
        ((st.db.releaseStatementWrites t).txn t).touches r = true
      rw [htouches]
      rcases release_row st.db t r with ⟨-, hov⟩ | ⟨c, htouch, -⟩
      · rw [hov]
        exact hold.overlay r
      · exact fun _ => htouch
    · intro hn r
      show ((st.db.releaseStatementWrites t).txn t).touches r = true →
        r.tab ∈ ((st.db.releaseStatementWrites t).txn t).writtenTabs
      rw [htouches, htabs]
      exact hold.noted hn r
    · intro hc
      show ((st.db.releaseStatementWrites t).txn t).writtenTabs = []
      rw [htabs]
      exact hold.counted hc
    · intro r hr
      show r.tab ∈ ((st.db.releaseStatementWrites t).txn t).writtenTabs ∧
        (t ∉ st.refused → ((st.db.releaseStatementWrites t).txn t).touches r = true) ∧ st.Unpublished t r
      rw [htouches, htabs]
      exact hold.writer r (hwriter r t hr)
    · intro r hr
      refine ⟨?_, .inl hat⟩
      change ((st.db.releaseStatementWrites t).rows r).pending = some t at hr
      show (((st.db.releaseStatementWrites t).txn t).overlay r).isSome
      rcases release_row st.db t r with ⟨heq, hov⟩ | ⟨c, -, -, -, -, -, hov⟩
      · rw [heq] at hr
        rw [hov]
        exact (hold.pending r hr).1
      · rw [hov]
        rfl
  · intro tab
    show _ ≤ ((st.db.releaseStatementWrites t).writeActivity tab).lastCts
    rw [hact]
  · exact fun cts wm todo hp => (not_publishing hat cts wm todo hp).elim
  · intro r c' hc' v hv
    change ((st.db.releaseStatementWrites t).rows r).chain = some c' at hc'
    right
    left
    rcases release_row st.db t r with ⟨heq, -⟩ | ⟨c, -, hc, -, -, heq, -⟩
    · rw [heq] at hc'
      exact ⟨c', hc', hv⟩
    · rw [heq] at hc'
      cases hc'
      exact ⟨c, hc, hv⟩

/-- The writers of a row after its writes are undone, but for `t`, were there before. -/
theorem aborted_writer {db db' : Db} (ha : Aborted db db' t) (hu : u ≠ t)
    (hw : (db'.rows r).writer = some u) : (db.rows r).writer = some u := by
  obtain ⟨c, hc, hcw⟩ := Row.writer_some.1 hw
  rw [ha.rows r] at hc
  rcases (undoRow_owned t _ _ _).2 c hc with ⟨-, hnone⟩ | ⟨c0, hc0, -, heq⟩
  · rw [hnone] at hcw
    cases hcw
  · cases hov : (db.txn t).overlay r with
    | none =>
        rw [restored_of_none hov] at hc0
        exact Row.writer_some.2 ⟨c0, hc0, heq ▸ hcw⟩
    | some ov =>
        unfold Db.restored Db.restoreWritersFromOverlays at hc0
        dsimp only at hc0
        rw [hov] at hc0
        cases hc0
        rw [heq] at hcw
        exact absurd (Option.some.inj hcw).symm hu

theorem abort_inv' (h : GateInv st) (hr : st.Ready t) : GateInv { st with db := st.db.abort t } := by
  obtain ⟨ht, hat⟩ := hr
  have ha := abort_spec ht.live
  have htracks := abort_tracks ht.live
  have hact : (st.db.abort t).writeActivity =
      (st.db.endWriteActivity (st.db.txn t).writtenTabs 0).writeActivity :=
    congrArg Tracks.writeActivity htracks
  have hdead : ¬ (st.db.abort t).Live t := ha.ended.not_live
  refine h.of_step (stepBy_db (R := st.refused) ha.others ha.nextTxnId (fun _ _ => Iff.rfl)) ht
    (fun hne => absurd hat hne) ?_ (fun r u hu hw => aborted_writer ha hu hw) ?_
    (fun hl => absurd hl hdead) ?_ ?_ ?_
  · intro tab
    show ((st.db.abort t).writeActivity tab).writers + _ = _ + if (st.db.abort t).Live t ∧ _ then 1 else 0
    rw [hact, endWriteActivity_count h ht 0 tab, if_neg fun hx => hdead hx.1]
    rfl
  · intro r u _ hp
    change ((st.db.abort t).rows r).pending = some u at hp
    rw [ha.rows r, undoRow_pending] at hp
    cases hov : (st.db.txn t).overlay r with
    | none => rwa [restored_of_none hov] at hp
    | some ov =>
        rw [restored_pending (by rw [hov]; rfl)] at hp
        cases hp
  · intro tab
    show _ ≤ ((st.db.abort t).writeActivity tab).lastCts
    rw [hact]
    exact endWriteActivity_lastCts _ _ _ _
  · exact fun cts wm todo hp => (not_publishing hat cts wm todo hp).elim
  · intro r c hc v hv
    change ((st.db.abort t).rows r).chain = some c at hc
    rw [ha.rows r] at hc
    rcases undoRow_hist t _ _ _ c hc with ⟨c0, hc0, heq⟩ | hnil
    · right
      left
      rw [heq, restored_chain hc0, Db.chainOf] at hv
      cases hch : (st.db.rows r).chain with
      | none =>
          rw [hch] at hv
          cases hv
      | some c1 =>
          rw [hch] at hv
          exact ⟨c1, rfl, hv⟩
    · rw [hnil] at hv
      cases hv

/-! ## Writes -/

/-- Noting a write counts `t` on the table of the row. -/
theorem noteWrite_counts (db : Db) (t : TxnId) (r : RowId) :
    (∀ tab, tab ∈ ((db.noteWrite t r).tracks.writtenTabs t) ↔
      tab ∈ (db.txn t).writtenTabs ∨ tab = r.tab) ∧
    (∀ tab, ((db.noteWrite t r).tracks.writeActivity tab).writers +
        (if tab ∈ (db.txn t).writtenTabs then 1 else 0) = (db.writeActivity tab).writers +
          if tab ∈ (db.txn t).writtenTabs ∨ tab = r.tab then 1 else 0) ∧
    ∀ tab, ((db.noteWrite t r).tracks.writeActivity tab).lastCts = (db.writeActivity tab).lastCts := by
  unfold Db.noteWrite
  dsimp only
  split
  · rename_i hmem
    have hmem' : r.tab ∈ (db.txn t).writtenTabs := by
      simpa [Db.txn] using hmem
    refine ⟨?_, ?_, fun tab => rfl⟩
    · intro tab
      show tab ∈ (db.txn t).writtenTabs ↔ _
      constructor
      · exact .inl
      · rintro (h | rfl)
        · exact h
        · exact hmem'
    · intro tab
      show (db.writeActivity tab).writers + _ = _
      by_cases htab : tab = r.tab
      · subst htab
        simp [hmem']
      · simp [htab]
  · rename_i hmem
    have hmem' : r.tab ∉ (db.txn t).writtenTabs := by
      simpa [Db.txn] using hmem
    refine ⟨?_, ?_, ?_⟩
    · intro tab
      simp [Db.tracks, Db.txn, Db.modifyTxn]
    · intro tab
      show (Function.update db.writeActivity r.tab _ tab).writers + _ = _
      by_cases htab : tab = r.tab
      · subst htab
        rw [Function.update_self]
        simp [hmem']
      · rw [Function.update_of_ne htab]
        simp [htab]
    · intro tab
      show (Function.update db.writeActivity r.tab _ tab).lastCts = _
      by_cases htab : tab = r.tab
      · subst htab
        rw [Function.update_self]
      · rw [Function.update_of_ne htab]

/-- A versioned write of one row; `R` are the transactions with a refused patch behind it. -/
theorem GateInv.wrote {db' : Db} {c : MvccChain} {s : Slot} {ws : List WriteRecord} {R : List TxnId}
    (h : GateInv st) (hready : st.Ready t)
    (hw : RowWrite st.db db' t r { st.db.rows r with slot := s, chain := some c } ws true)
    (htracks : db'.tracks = (st.db.noteWrite t r).tracks)
    (hR : ∀ u, u ≠ t → (u ∈ R ↔ u ∈ st.refused)) (hRt : t ∉ R → t ∉ st.refused)
    (hws : ∀ w ∈ ws, w.row = r)
    (hc : c.writer = (st.db.rows r).writer ∨ c.writer = some t ∧
      (t ∉ R → (db'.txn t).touches r = true))
    (hhist : ∀ v ∈ c.hist, v.commitTs = 0 ∨ ∃ c0, (st.db.rows r).chain = some c0 ∧ v ∈ c0.hist) :
    GateInv { st with db := db', refused := R } := by
  obtain ⟨ht, hat⟩ := hready
  have hts := (Txn.live_iff.1 ht).1
  have hlive' : db'.Live t := (hw.live_iff hts t).2 ht
  obtain ⟨htabs, hcount, hlast⟩ := noteWrite_counts st.db t r
  rw [← htracks] at htabs hcount hlast
  have hold := h.holds t ht
  have hnot : ¬ st.CountedOut t := by simp [CountedOut, hat]
  have hpend : ∀ r', (db'.rows r').pending = (st.db.rows r').pending := by
    intro r'
    rcases eq_or_ne r' r with rfl | hr
    · rw [hw.row_self]
    · rw [hw.row_other hr]
  refine h.of_step (stepBy_db hw.others hw.nextTxnId hR) ht (fun hne => absurd hat hne) ?_ ?_
    (fun r' u _ hp => by rw [← hpend r']; exact hp) ?_ ?_ ?_ ?_
  · intro tab
    show (db'.writeActivity tab).writers + _ = _ +
      if db'.Live t ∧ tab ∈ (db'.txn t).writtenTabs then 1 else 0
    have hiff : (db'.Live t ∧ tab ∈ (db'.txn t).writtenTabs) ↔
        tab ∈ (st.db.txn t).writtenTabs ∨ tab = r.tab := by
      rw [← htabs tab]
      exact ⟨fun hx => hx.2, fun hx => ⟨hlive', hx⟩⟩
    rw [if_congr hiff rfl rfl]
    exact hcount tab
  · intro r' u hu hwr
    change (db'.rows r').writer = some u at hwr
    rcases eq_or_ne r' r with rfl | hne
    · rw [hw.row_self] at hwr
      change c.writer = some u at hwr
      rcases hc with heq | ⟨heq, -⟩
      · rw [← heq, hwr]
      · rw [heq] at hwr
        exact absurd (Option.some.inj hwr).symm hu
    · rwa [hw.row_other hne] at hwr
  · intro _
    refine ⟨?_, ?_, fun hcounted => absurd hcounted hnot, ?_, ?_⟩
    · intro r' hr'
      change ((db'.txn t).overlay r').isSome at hr'
      rw [hw.overlay] at hr'
      exact hw.touches (hold.overlay r' hr')
    · intro _ r' htouch
      obtain ⟨w, hmem, hwr⟩ := touches_mem htouch
      change w ∈ (db'.txn t).writeSet at hmem
      rw [hw.writeSet] at hmem
      refine (htabs r'.tab).2 ?_
      rcases List.mem_append.1 hmem with hmem | hmem
      · exact .inl (hold.noted hnot r' (List.any_eq_true.2 ⟨w, hmem, by simp [hwr]⟩))
      · exact .inr (by rw [← hwr, hws w hmem])
    · intro r' hwr
      change (db'.rows r').writer = some t at hwr
      have hunpub : Unpublished { st with db := db', refused := R } t r' :=
        fun cts wm todo hp => (not_publishing hat cts wm todo hp).elim
      have hkeep : (st.db.rows r').writer = some t →
          r'.tab ∈ (db'.txn t).writtenTabs ∧ (t ∉ R → (db'.txn t).touches r' = true) := by
        intro hx
        obtain ⟨h1, h2, -⟩ := hold.writer r' hx
        exact ⟨(htabs r'.tab).2 (.inl h1), fun hn => hw.touches (h2 (hRt hn))⟩
      rcases eq_or_ne r' r with rfl | hne
      · rw [hw.row_self] at hwr
        change c.writer = some t at hwr
        rcases hc with heq | ⟨-, htouch⟩
        · rw [heq] at hwr
          exact ⟨(hkeep hwr).1, (hkeep hwr).2, hunpub⟩
        · exact ⟨(htabs r'.tab).2 (.inr rfl), htouch, hunpub⟩
      · rw [hw.row_other hne] at hwr
        exact ⟨(hkeep hwr).1, (hkeep hwr).2, hunpub⟩
    · intro r' hp
      change (db'.rows r').pending = some t at hp
      rw [hpend] at hp
      refine ⟨?_, .inl hat⟩
      show ((db'.txn t).overlay r').isSome
      rw [hw.overlay]
      exact (hold.pending r' hp).1
  · intro tab
    exact le_of_eq (hlast tab).symm
  · exact fun cts wm todo hp => (not_publishing hat cts wm todo hp).elim
  · intro r' c' hc' v hv
    change (db'.rows r').chain = some c' at hc'
    rcases eq_or_ne r' r with rfl | hne
    · rw [hw.row_self] at hc'
      cases hc'
      exact (hhist v hv).imp_right .inl
    · rw [hw.row_other hne] at hc'
      exact .inr (.inl ⟨c', hc', hv⟩)

theorem insert_inv (h : GateInv st) {data : Bytes} (hstep : st.insert t r data = some st') :
    GateInv st' := by
  obtain ⟨⟨hready, -⟩, heq⟩ := Option.ite_none_right_eq_some.1 hstep
  cases heq
  have h1 := mvccInsert_write st.db t r data
  have h2 := h1.trans (RowWrite.fillSlot _ t r ⟨data, some t⟩)
  rw [h1.row_self, List.append_nil, Bool.or_false] at h2
  refine h.wrote hready h2 (mvccInsert_tracks st.db t r data) (fun _ _ => Iff.rfl) id ?_
    (.inr ⟨rfl, fun _ => ?_⟩) ?_
  · intro w hw
    rw [List.mem_singleton.1 hw]
  · rw [Transaction.touches, h2.writeSet, List.any_append]
    simp
  · intro v hv
    cases hv

/-- The versions that a write finds in the chain. -/
theorem chainOf_hist {db : Db} {v : MvccVer} (hv : v ∈ (db.chainOf r).hist) :
    ∃ c, (db.rows r).chain = some c ∧ v ∈ c.hist := by
  unfold Db.chainOf at hv
  cases hc : (db.rows r).chain with
  | none =>
      rw [hc] at hv
      cases hv
  | some c =>
      rw [hc] at hv
      exact ⟨c, rfl, hv⟩

theorem writtenChain_ver {db : Db} {old : Image} {del : Bool} {data : Image} {hold : Bool} {v : MvccVer}
    (hv : v ∈ (db.writtenChain t r old del data hold).hist) :
    v.commitTs = 0 ∨ ∃ c, (db.rows r).chain = some c ∧ v ∈ c.hist := by
  rcases writtenChain_hist db t r old del data hold with heq | ⟨img, heq⟩
  · rw [heq] at hv
    exact .inr (chainOf_hist hv)
  · rw [heq, List.mem_singleton] at hv
    rw [hv]
    exact .inl rfl

/-- A write that leaves no record has written the row before. -/
theorem Holds.touches_of_record {db' : Db} {row : Row} {rec : WriteRecord}
    (hold : st.Holds t) (href : t ∉ st.refused) (hrec : rec.row = r)
    (hw : RowWrite st.db db' t r row (st.db.newRecord t r rec) true) :
    (db'.txn t).touches r = true := by
  by_cases hfirst : st.db.firstTouch t r (st.db.chainOf r) = true
  · rw [Transaction.touches, hw.writeSet, List.any_append, Db.newRecord, if_pos hfirst]
    simp [hrec]
  · refine hw.touches ?_
    simp only [Db.firstTouch, Bool.and_eq_true, decide_eq_true_eq, not_and, Option.isNone_iff_eq_none,
      Bool.not_eq_true', Bool.not_eq_false] at hfirst
    by_cases hwr : (st.db.chainOf r).writer = some t
    · have hrow : (st.db.rows r).writer = some t := by
        unfold Db.chainOf at hwr
        cases hc : (st.db.rows r).chain with
        | none =>
            rw [hc] at hwr
            cases hwr
        | some c =>
            rw [hc] at hwr
            exact Row.writer_some.2 ⟨c, hc, hwr⟩
      exact (hold.writer r hrow).2.1 href
    · cases hov : (st.db.txn t).overlay r with
      | none => exact hfirst ⟨hwr, hov⟩
      | some ov => exact hold.overlay r (by rw [hov]; rfl)

theorem chainOf_writer (db : Db) (r : RowId) : (db.chainOf r).writer = (db.rows r).writer := by
  unfold Db.chainOf Row.writer
  cases (db.rows r).chain <;> rfl

/-- Only the list of refused patches changes. -/
theorem GateInv.refuse {R : List TxnId} (h : GateInv st) (hready : st.Ready t)
    (hR : ∀ u, u ≠ t → (u ∈ R ↔ u ∈ st.refused)) (hRt : t ∉ R → t ∉ st.refused) :
    GateInv { st with refused := R } := by
  obtain ⟨ht, hat⟩ := hready
  have hold := h.holds t ht
  refine h.of_step (stepBy_db (fun _ _ => rfl) rfl hR) ht (fun hne => absurd hat hne) ?_
    (fun _ _ _ hr => hr) (fun _ _ _ hr => hr) ?_ (fun _ => le_rfl)
    (fun cts wm todo hp => (not_publishing hat cts wm todo hp).elim)
    (fun r c hc v hv => .inr (.inl ⟨c, hc, hv⟩))
  · intro tab
    simp only [ht, true_and]
  · intro _
    refine ⟨hold.overlay, hold.noted, hold.counted, fun r hr => ?_, hold.pending⟩
    obtain ⟨h1, h2, h3⟩ := hold.writer r hr
    exact ⟨h1, fun hn => h2 (hRt hn), h3⟩

/-- A versioned write that is turned down leaves the row as it is, or is the last of `t`. -/
theorem GateInv.of_wrote {db' : Db} {old : Image} {del keeps : Bool} {P : Image → Prop}
    {out : WriteOutcome} {R : List TxnId} (h : GateInv st) (hready : st.Ready t)
    (hout : Wrote st.db t r old del P keeps out) (hdb : out.db? = some db')
    (htracks : db' = st.db ∨ db'.tracks = (st.db.noteWrite t r).tracks)
    (hR : ∀ u, u ≠ t → (u ∈ R ↔ u ∈ st.refused)) (hRt : t ∉ R → t ∉ st.refused)
    (hlast : ∀ db1, out = .refused db1 → t ∈ R ∨ db1 = st.db.touchChain t r) :
    GateInv { st with db := db', refused := R } := by
  rcases htracks with rfl | htracks
  · exact h.refuse hready hR hRt
  have htouched : RowWrite st.db db' t r ((st.db.rows r).withChain (st.db.chainOf r)) [] true →
      GateInv { st with db := db', refused := R } := fun hw =>
    h.wrote hready hw htracks hR hRt (fun w hw => by cases hw) (.inl (chainOf_writer st.db r))
      fun v hv => .inr (chainOf_hist hv)
  cases hout with
  | untouched =>
      cases hdb
      exact h.refuse hready hR hRt
  | refused hw why =>
      cases hdb
      exact htouched hw
  | failed hw free =>
      cases hdb
      rcases hlast db' rfl with hin | rfl
      · exact h.wrote hready hw htracks hR hRt (fun w hw => by cases hw)
          (.inr ⟨rfl, fun hn => absurd hin hn⟩) fun v hv => writtenChain_ver hv
      · exact htouched (touchChain_write st.db t r)
  | written hw free origin value =>
      cases hdb
      refine h.wrote hready hw htracks hR hRt ?_ (.inr ⟨rfl, fun hn => ?_⟩)
        fun v hv => writtenChain_ver hv
      · intro w hmem
        rw [newRecord_row hmem]
      · exact (h.holds t hready.1).touches_of_record (hRt hn) rfl hw
  | nullRead => cases hdb

theorem mvccWrite_refused {db db1 : Db} {old : Image} {new : Option Bytes}
    (h : db.mvccWrite t r old new = .refused db1) : db1 = db.touchChain t r := by
  unfold Db.mvccWrite at h
  dsimp only at h
  split at h
  · cases h
    rfl
  · split at h
    · cases h
    · split at h
      · cases h
        rfl
      · split at h
        · cases h
        · split at h
          · cases h
            rfl
          · cases h

theorem colDelta_refused {db db1 : Db} {visible : Image} {off : Nat} {type : ColType}
    {deltaF deltaI : BitVec 32} (hfits : type ≠ .string ∧ off + 4 ≤ (db.tabs r.tab).recordSize)
    (h : db.mvccWriteColDelta t r visible off type deltaF deltaI = .refused db1) :
    db1 = db.touchChain t r := by
  unfold Db.mvccWriteColDelta at h
  dsimp only at h
  split at h
  · cases h
    rfl
  · rw [if_neg (not_or.2 ⟨hfits.1, not_lt.2 hfits.2⟩)] at h
    cases h

/-! ## Runs -/

theorem write_eq {fits : Bool} {out : WriteOutcome} (h : st.write t r fits out = some st') :
    st.Ready t ∧ fits = true ∧ ∃ db', out.db? = some db' ∧ st' = { st with db := db' } := by
  obtain ⟨⟨hready, -, hfits⟩, hout⟩ := Option.ite_none_right_eq_some.1 h
  obtain ⟨db', hdb, rfl⟩ := Option.map_eq_some_iff.1 hout
  exact ⟨hready, hfits, db', hdb, rfl⟩

/-- **One step keeps the gate's invariant.** -/
theorem step_inv (h : GateInv st) {a : GateAct} (hstep : st.step a = some st') : GateInv st' := by
  cases a with
  | begin explicit iso =>
      cases hstep
      exact begin_inv' h explicit iso
  | mvccInsert t r data => exact insert_inv h hstep
  | mvccWrite t r old new =>
      obtain ⟨hready, -, db', hdb, rfl⟩ := write_eq hstep
      exact h.of_wrote hready (mvccWrite_spec st.db t r old new) hdb (.inr (mvccWrite_tracks hdb))
        (fun _ _ => Iff.rfl) id fun db1 hr => .inr (mvccWrite_refused hr)
  | mvccWriteColDelta t r visible off type deltaF deltaI =>
      obtain ⟨hready, hfits, db', hdb, rfl⟩ := write_eq hstep
      have hfits' := of_decide_eq_true hfits
      exact h.of_wrote hready (colDelta_spec st.db t r visible deltaF deltaI hfits'.1 hfits'.2) hdb
        (.inr (colDelta_tracks hdb)) (fun _ _ => Iff.rfl) id
        fun db1 hr => .inr (colDelta_refused hfits' hr)
  | mvccWriteColPatch t r visible patches =>
      obtain ⟨st1, hwrite, rfl⟩ := Option.map_eq_some_iff.1 hstep
      obtain ⟨hready, -, db', hdb, rfl⟩ := write_eq hwrite
      have hspec := colPatch_spec st.db t r visible patches
      have htracks := colPatch_tracks hdb
      split
      · exact h.of_wrote (R := t :: st.refused) hready hspec hdb htracks
          (fun u hu => by simp [hu]) (fun hn => absurd List.mem_cons_self hn)
          fun _ _ => .inl List.mem_cons_self
      · rename_i hout
        refine h.of_wrote hready hspec hdb htracks (fun _ _ => Iff.rfl) id fun db1 hr => ?_
        rw [hr] at hout
        exact absurd rfl hout
  | release t =>
      obtain ⟨hready, heq⟩ := Option.ite_none_right_eq_some.1 hstep
      cases heq
      exact release_inv' h hready
  | abort t =>
      obtain ⟨hready, heq⟩ := Option.ite_none_right_eq_some.1 hstep
      cases heq
      exact abort_inv' h hready
  | startCommit t => exact startCommit_inv h hstep
  | restore t r => exact restore_inv h hstep
  | stamp t => exact stamp_inv h hstep
  | leaveActive t => exact leaveActive_inv h hstep
  | finishSer t => exact finishSer_inv h hstep
  | publish t => exact publish_inv h hstep
  | endActivity t => exact endActivity_inv h hstep
  | endDelKeys t => exact endDelKeys_inv h hstep
  | reclaim t => exact reclaim_inv h hstep
  | writeCommit t => exact writeCommit_inv h hstep
  | finish t => exact finish_inv h hstep

theorem boot_inv' (tabs : TabName → TabMeta) (files : TabName → RmFileHdr) (heap : RowId → Slot)
    (index : IndexId → IndexMap) : GateInv (boot tabs files heap index) where
  fresh := fun _ _ => rfl
  known := fun r u hu => by rcases hu with hu | hu <;> cases hu
  busy := fun u hu => absurd rfl hu
  count := fun tab => rfl
  holds := fun u hl => by
    obtain ⟨x, hx, -⟩ := hl
    cases hx
  shown := fun r c hc => by cases hc

end Gated

end Rmdb.Txn
