import Rmdb.Mvcc.Gate

/-!
# The invariant of the read gate, and commit

`GateInv` ties the gate to the chains.  A live transaction is counted on the tables it has
written until its `endActivity`; until then it may have uncommitted writes in chains and overlays
of these tables only, and behind `endActivity` it has none.  A version is at or below `last_cts` of
its table, or it was published by a transaction that is still counted.
-/

namespace Rmdb.Txn

namespace Gated

variable {st st' : Gated} {t u : TxnId} {r : RowId}

/-! ## The invariant -/

/-- The transaction is counted out of the write activity. -/
def CountedOut (st : Gated) (u : TxnId) : Prop :=
  match st.at_ u with
  | .counted _ _ | .reclaiming _ _ | .marked | .logged => True
  | _ => False

/-- The row is still to be published by `u`, if `u` publishes. -/
def Unpublished (st : Gated) (u : TxnId) (r : RowId) : Prop :=
  ∀ cts wm todo, st.at_ u = .publishing cts wm todo → ∃ w ∈ todo, w.row = r

/-- The overlay of the row is not taken back yet. -/
def Unrestored (st : Gated) (u : TxnId) (r : RowId) : Prop :=
  st.at_ u = .outside ∨ ∃ todo, st.at_ u = .restoring todo ∧ r ∈ todo

/-- What a live transaction holds, and where it is counted. -/
structure Holds (st : Gated) (u : TxnId) : Prop where
  overlay : ∀ r, ((st.db.txn u).overlay r).isSome → (st.db.txn u).touches r = true
  noted : ¬ st.CountedOut u → ∀ r, (st.db.txn u).touches r = true → r.tab ∈ (st.db.txn u).writtenTabs
  counted : st.CountedOut u → (st.db.txn u).writtenTabs = []
  writer : ∀ r, (st.db.rows r).writer = some u → r.tab ∈ (st.db.txn u).writtenTabs ∧
    (u ∉ st.refused → (st.db.txn u).touches r = true) ∧ st.Unpublished u r
  pending : ∀ r, (st.db.rows r).pending = some u →
    ((st.db.txn u).overlay r).isSome ∧ st.Unrestored u r

/-- A version with the timestamp `ts` in the table is visible to the gate. -/
def Shown (st : Gated) (tab : TabName) (ts : Ts) : Prop :=
  ts ≤ (st.db.writeActivity tab).lastCts ∨ ∃ u cts wm todo, st.db.Live u ∧
    tab ∈ (st.db.txn u).writtenTabs ∧ st.at_ u = .publishing cts wm todo ∧ ts ≤ cts

structure GateInv (st : Gated) : Prop where
  fresh : ∀ u, st.db.nextTxnId ≤ u → st.db.txns u = none
  known : ∀ r u, (st.db.rows r).writer = some u ∨ (st.db.rows r).pending = some u →
    u < st.db.nextTxnId
  busy : ∀ u, st.at_ u ≠ .outside → st.db.Live u ∧ u ∉ st.refused
  count : ∀ tab, (st.db.writeActivity tab).writers =
    ((Finset.range st.db.nextTxnId).filter fun u =>
      st.db.Live u ∧ tab ∈ (st.db.txn u).writtenTabs).card
  holds : ∀ u, st.db.Live u → st.Holds u
  shown : ∀ r c, (st.db.rows r).chain = some c → ∀ v ∈ c.hist, st.Shown r.tab v.commitTs

theorem Holds.tab_of_owns (h : st.Holds u) (ho : st.db.Owns u r) : r.tab ∈ (st.db.txn u).writtenTabs := by
  rcases ho with hw | hp
  · exact (h.writer r (Row.writer_some.2 hw)).1
  · obtain ⟨hov, hun⟩ := h.pending r hp
    refine h.noted ?_ r (h.overlay r hov)
    rcases hun with hout | ⟨todo, hres, -⟩
    · simp [CountedOut, hout]
    · simp [CountedOut, hres]

theorem lt_of_live (hfresh : ∀ u, st.db.nextTxnId ≤ u → st.db.txns u = none) (h : st.db.Live u) :
    u < st.db.nextTxnId := by
  obtain ⟨x, hx, -⟩ := h
  by_contra hge
  rw [hfresh u (not_lt.1 hge)] at hx
  cases hx

theorem GateInv.sound (h : GateInv st) : GateSound st.db where
  writers := h.count
  closed := by
    intro t tab hgate r htab
    subst htab
    simp only [Db.serNeedsReadCheck, Bool.or_eq_false_iff, decide_eq_false_iff_not] at hgate
    obtain ⟨hwriters, hlast⟩ := hgate
    -- no live transaction is counted on the table
    have hnone : ∀ u, st.db.Live u → r.tab ∉ (st.db.txn u).writtenTabs := by
      intro u hl hmem
      apply hwriters
      rw [h.count]
      exact Finset.card_pos.2
        ⟨u, Finset.mem_filter.2 ⟨Finset.mem_range.2 (lt_of_live h.fresh hl), hl, hmem⟩⟩
    refine ⟨fun u _ hl ho => hnone u hl ((h.holds u hl).tab_of_owns ho), fun c hc v hv => ?_⟩
    rcases h.shown r c hc v hv with hle | ⟨u, cts, wm, todo, hl, hmem, -, -⟩
    · exact le_trans hle (not_lt.1 hlast)
    · exact absurd hmem (hnone u hl)

/-! ## A step of one transaction -/

/-- A step of `t` leaves the other transactions alone. -/
structure StepBy (st st' : Gated) (t : TxnId) : Prop where
  txns : ∀ u, u ≠ t → st'.db.txns u = st.db.txns u
  at_ : ∀ u, u ≠ t → st'.at_ u = st.at_ u
  refused : ∀ u, u ≠ t → (u ∈ st'.refused ↔ u ∈ st.refused)
  next : st'.db.nextTxnId = st.db.nextTxnId

theorem StepBy.live_iff (h : StepBy st st' t) (hu : u ≠ t) : st'.db.Live u ↔ st.db.Live u := by
  unfold Db.Live
  rw [h.txns u hu]

theorem Holds.other (h : st.Holds u) (hs : StepBy st st' t) (hu : u ≠ t)
    (hwriter : ∀ r, (st'.db.rows r).writer = some u → (st.db.rows r).writer = some u)
    (hpending : ∀ r, (st'.db.rows r).pending = some u → (st.db.rows r).pending = some u) :
    st'.Holds u := by
  have htxn := Db.txn_congr (hs.txns u hu)
  have hat := hs.at_ u hu
  have hout : st'.CountedOut u ↔ st.CountedOut u := by
    unfold CountedOut
    rw [hat]
  refine ⟨?_, ?_, ?_, ?_, ?_⟩
  · intro r
    rw [htxn]
    exact h.overlay r
  · intro hn r
    rw [htxn]
    exact h.noted (fun hc => hn (hout.2 hc)) r
  · intro hc
    rw [htxn]
    exact h.counted (hout.1 hc)
  · intro r hr
    rw [htxn, hs.refused u hu]
    unfold Unpublished
    rw [hat]
    exact h.writer r (hwriter r hr)
  · intro r hr
    rw [htxn]
    unfold Unrestored
    rw [hat]
    exact h.pending r (hpending r hr)

/-- The number of transactions with a property, when it changes for `t` only. -/
theorem card_change {p q : TxnId → Prop} [DecidablePred p] [DecidablePred q] {n : Nat} (ht : t < n)
    (hne : ∀ u, u ≠ t → (p u ↔ q u)) :
    ((Finset.range n).filter p).card + (if q t then 1 else 0) =
      ((Finset.range n).filter q).card + if p t then 1 else 0 := by
  have hrest : ∀ (s : TxnId → Prop) [DecidablePred s], ((Finset.range n).filter s).card =
      (((Finset.range n).filter fun u => s u ∧ u ≠ t)).card + if s t then 1 else 0 := by
    intro s _
    have hend := card_end (p := fun u => s u ∧ u ≠ t) (q := s) ht
      (fun u hu => ⟨And.left, fun hsu => ⟨hsu, hu⟩⟩) (fun hst => hst.2 rfl)
    by_cases hst : s t
    · have hpos : 0 < ((Finset.range n).filter s).card :=
        Finset.card_pos.2 ⟨t, Finset.mem_filter.2 ⟨Finset.mem_range.2 ht, hst⟩⟩
      rw [if_pos hst] at hend ⊢
      omega
    · rw [if_neg hst] at hend ⊢
      omega
  have heq : ((Finset.range n).filter fun u => p u ∧ u ≠ t) =
      (Finset.range n).filter fun u => q u ∧ u ≠ t := by
    refine Finset.filter_congr fun u _ => ?_
    constructor
    · rintro ⟨hp, hu⟩
      exact ⟨(hne u hu).1 hp, hu⟩
    · rintro ⟨hq, hu⟩
      exact ⟨(hne u hu).2 hq, hu⟩
  rw [hrest p, hrest q, heq]
  omega

/-- What a step of `t` has to keep. -/
theorem GateInv.of_step (h : GateInv st) (hs : StepBy st st' t) (ht : st.db.Live t)
    (hbusy : st'.at_ t ≠ .outside → st'.db.Live t ∧ t ∉ st'.refused)
    (hcount : ∀ tab, (st'.db.writeActivity tab).writers +
        (if tab ∈ (st.db.txn t).writtenTabs then 1 else 0) = (st.db.writeActivity tab).writers +
          if st'.db.Live t ∧ tab ∈ (st'.db.txn t).writtenTabs then 1 else 0)
    (hwriter : ∀ r u, u ≠ t → (st'.db.rows r).writer = some u → (st.db.rows r).writer = some u)
    (hpending : ∀ r u, u ≠ t → (st'.db.rows r).pending = some u → (st.db.rows r).pending = some u)
    (hself : st'.db.Live t → st'.Holds t)
    (hlast : ∀ tab, (st.db.writeActivity tab).lastCts ≤ (st'.db.writeActivity tab).lastCts)
    (hpub : ∀ cts wm todo, st.at_ t = .publishing cts wm todo →
      ∀ tab ∈ (st.db.txn t).writtenTabs, st'.Shown tab cts)
    (hhist : ∀ r c', (st'.db.rows r).chain = some c' → ∀ v ∈ c'.hist,
      v.commitTs = 0 ∨ (∃ c, (st.db.rows r).chain = some c ∧ v ∈ c.hist) ∨ st'.Shown r.tab v.commitTs) :
    GateInv st' := by
  have htn := lt_of_live h.fresh ht
  refine ⟨?_, ?_, ?_, ?_, ?_, ?_⟩
  · intro u hu
    rw [hs.next] at hu
    have hne : u ≠ t := by
      rintro rfl
      exact absurd htn (not_lt.2 hu)
    rw [hs.txns u hne]
    exact h.fresh u hu
  · intro r u hu
    rw [hs.next]
    rcases eq_or_ne u t with rfl | hne
    · exact htn
    · exact h.known r u (hu.imp (hwriter r u hne) (hpending r u hne))
  · intro u hu
    rcases eq_or_ne u t with rfl | hne
    · exact hbusy hu
    · rw [hs.at_ u hne] at hu
      rw [hs.live_iff hne, hs.refused u hne]
      exact h.busy u hu
  · intro tab
    have hcard := card_change (p := fun u => st'.db.Live u ∧ tab ∈ (st'.db.txn u).writtenTabs)
      (q := fun u => st.db.Live u ∧ tab ∈ (st.db.txn u).writtenTabs) htn (by
        intro u hu
        rw [hs.live_iff hu, Db.txn_congr (hs.txns u hu)])
    have hold := h.count tab
    have hnew := hcount tab
    simp only [ht, true_and] at hcard
    rw [hs.next]
    omega
  · intro u hl
    rcases eq_or_ne u t with rfl | hne
    · exact hself hl
    · exact (h.holds u ((hs.live_iff hne).1 hl)).other hs hne (fun r => hwriter r u hne)
        (fun r => hpending r u hne)
  · intro r c' hc' v hv
    rcases hhist r c' hc' v hv with hzero | ⟨c, hc, hvc⟩ | hshown
    · rw [hzero]
      exact .inl (Nat.zero_le _)
    · rcases h.shown r c hc v hvc with hle | ⟨u, cts, wm, todo, hl, hmem, hat, hle⟩
      · exact .inl (le_trans hle (hlast r.tab))
      · rcases eq_or_ne u t with rfl | hne
        · rcases hpub cts wm todo hat r.tab hmem with hle' | ⟨u', cts', wm', todo', h1, h2, h3, h4⟩
          · exact .inl (le_trans hle hle')
          · exact .inr ⟨u', cts', wm', todo', h1, h2, h3, le_trans hle h4⟩
        · refine .inr ⟨u, cts, wm, todo, (hs.live_iff hne).2 hl, ?_, ?_, hle⟩
          · rw [Db.txn_congr (hs.txns u hne)]
            exact hmem
          · rw [hs.at_ u hne]
            exact hat
    · exact hshown

/-- A step inside `commit` that neither counts `t` out nor ends it. -/
theorem GateInv.move (h : GateInv st) (hs : StepBy st st' t) (ht : st.db.Live t)
    (hl : st'.db.Live t) (hact : st'.db.writeActivity = st.db.writeActivity)
    (href : st'.refused = st.refused) (hnot : t ∉ st.refused)
    (htxn : (st'.db.txn t).overlay = (st.db.txn t).overlay ∧
      (st'.db.txn t).writeSet = (st.db.txn t).writeSet ∧
      (st'.db.txn t).writtenTabs = (st.db.txn t).writtenTabs)
    (hout : st'.CountedOut t ↔ st.CountedOut t)
    (hwriter : ∀ r u, (st'.db.rows r).writer = some u → (st.db.rows r).writer = some u ∨
      (u = t ∧ ¬ st.CountedOut t ∧ ((st.db.txn t).overlay r).isSome))
    (hpending : ∀ r u, (st'.db.rows r).pending = some u → (st.db.rows r).pending = some u)
    (hunpub : ∀ r, (st'.db.rows r).writer = some t → st'.Unpublished t r)
    (hunres : ∀ r, (st'.db.rows r).pending = some t → st'.Unrestored t r)
    (hpub : ∀ cts wm todo, st.at_ t = .publishing cts wm todo →
      ∃ wm' todo', st'.at_ t = .publishing cts wm' todo')
    (hhist : ∀ r c', (st'.db.rows r).chain = some c' → ∀ v ∈ c'.hist,
      v.commitTs = 0 ∨ (∃ c, (st.db.rows r).chain = some c ∧ v ∈ c.hist) ∨ st'.Shown r.tab v.commitTs) :
    GateInv st' := by
  obtain ⟨hov, hws, htabs⟩ := htxn
  have htouches : ∀ r, (st'.db.txn t).touches r = (st.db.txn t).touches r := by
    intro r
    unfold Transaction.touches
    rw [hws]
  have hold := h.holds t ht
  refine h.of_step hs ht (fun _ => ⟨hl, href ▸ hnot⟩) ?_ ?_ (fun r u _ => hpending r u) ?_ ?_ ?_ hhist
  · intro tab
    rw [hact, htabs]
    simp only [hl, true_and]
  · intro r u hu hr
    exact (hwriter r u hr).resolve_right fun hx => hu hx.1
  · intro _
    refine ⟨?_, ?_, ?_, ?_, ?_⟩
    · intro r
      rw [hov, htouches]
      exact hold.overlay r
    · intro hn r
      rw [htouches, htabs]
      exact hold.noted (fun hc => hn (hout.2 hc)) r
    · intro hc
      rw [htabs]
      exact hold.counted (hout.1 hc)
    · intro r hr
      rw [htabs, htouches]
      rcases hwriter r t hr with hw | ⟨-, hn, hsome⟩
      · obtain ⟨h1, h2, -⟩ := hold.writer r hw
        exact ⟨h1, fun _ => h2 hnot, hunpub r hr⟩
      · have htouch := hold.overlay r hsome
        exact ⟨hold.noted hn r htouch, fun _ => htouch, hunpub r hr⟩
    · intro r hr
      rw [hov]
      exact ⟨(hold.pending r (hpending r t hr)).1, hunres r hr⟩
  · intro tab
    rw [hact]
  · intro cts wm todo hat tab hmem
    obtain ⟨wm', todo', hat'⟩ := hpub cts wm todo hat
    exact .inr ⟨t, cts, wm', todo', hl, by rw [htabs]; exact hmem, hat', le_rfl⟩

/-! ## Commit -/

@[simp] theorem goTo_at (st : Gated) (t : TxnId) (s : CommitSection) : (st.goTo t s).at_ t = s :=
  Function.update_self _ _ _

theorem goTo_at_ne (st : Gated) (s : CommitSection) (hu : u ≠ t) : (st.goTo t s).at_ u = st.at_ u :=
  Function.update_of_ne hu _ _

/-- A step of `t` inside `commit`. -/
theorem stepBy_goTo {db' : Db} (s : CommitSection) (htxns : ∀ u, u ≠ t → db'.txns u = st.db.txns u)
    (hnext : db'.nextTxnId = st.db.nextTxnId) : StepBy st ({ st with db := db' }.goTo t s) t where
  txns := htxns
  at_ := fun _ hu => goTo_at_ne _ s hu
  refused := fun _ _ => Iff.rfl
  next := hnext

theorem startCommit_inv (h : GateInv st) (hstep : st.startCommit t = some st') : GateInv st' := by
  obtain ⟨⟨⟨ht, hat⟩, href⟩, heq⟩ := Option.ite_none_right_eq_some.1 hstep
  cases heq
  have hstep : StepBy st ({ st with db := st.db }.goTo t (.restoring (st.overlayRows t))) t :=
    stepBy_goTo _ (fun _ _ => rfl) rfl
  refine h.move hstep ht ht rfl rfl href
    ⟨rfl, rfl, rfl⟩ ?_ (fun r u hr => .inl hr) (fun r u hr => hr) ?_ ?_ ?_ ?_
  · simp [CountedOut, hat]
  · intro r _ cts wm todo hp
    simp at hp
  · intro r hr
    obtain ⟨hov, -⟩ := (h.holds t ht).pending r hr
    refine .inr ⟨_, goTo_at _ _ _, List.mem_filter.2 ⟨?_, hov⟩⟩
    obtain ⟨w, hw, hwr⟩ := touches_mem ((h.holds t ht).overlay r hov)
    exact List.mem_map.2 ⟨w, hw, hwr⟩
  · intro cts wm todo hp
    rw [hat] at hp
    cases hp
  · exact fun r c hc v hv => .inr (.inl ⟨c, hc, hv⟩)

theorem restore_inv (h : GateInv st) (hstep : st.restore t r = some st') : GateInv st' := by
  unfold restore at hstep
  split at hstep
  · rename_i todo ov hat hov
    obtain ⟨hmem, heq⟩ := Option.ite_none_right_eq_some.1 hstep
    cases heq
    obtain ⟨ht, href⟩ := h.busy t (by rw [hat]; simp)
    have hrow : ∀ r', r' ≠ r →
        (st.db.setRow r (restoreRow t ov (st.db.rows r))).rows r' = st.db.rows r' :=
      fun r' hr' => Function.update_of_ne hr' _ _
    have hself : (st.db.setRow r (restoreRow t ov (st.db.rows r))).rows r =
        restoreRow t ov (st.db.rows r) := Function.update_self _ _ _
    refine h.move (stepBy_goTo _ (fun _ _ => rfl) rfl) ht ht rfl rfl href ⟨rfl, rfl, rfl⟩ ?_ ?_ ?_ ?_
      ?_ ?_ ?_
    · simp [CountedOut, hat]
    · intro r' u hr'
      rcases eq_or_ne r' r with rfl | hne
      · change ((st.db.setRow r' _).rows r').writer = some u at hr'
        rw [hself] at hr'
        cases hr'
        exact .inr ⟨rfl, by simp [CountedOut, hat], by rw [hov]; rfl⟩
      · change ((st.db.setRow r _).rows r').writer = some u at hr'
        rw [hrow r' hne] at hr'
        exact .inl hr'
    · intro r' u hr'
      rcases eq_or_ne r' r with rfl | hne
      · change ((st.db.setRow r' _).rows r').pending = some u at hr'
        rw [hself] at hr'
        cases hr'
      · change ((st.db.setRow r _).rows r').pending = some u at hr'
        rwa [hrow r' hne] at hr'
    · intro r' _ cts wm todo' hp
      simp at hp
    · intro r' hr'
      have hne : r' ≠ r := by
        rintro rfl
        change ((st.db.setRow r' _).rows r').pending = some t at hr'
        rw [hself] at hr'
        cases hr'
      change ((st.db.setRow r _).rows r').pending = some t at hr'
      rw [hrow r' hne] at hr'
      refine .inr ⟨_, goTo_at _ _ _, List.mem_filter.2 ⟨?_, by simpa using hne⟩⟩
      rcases ((h.holds t ht).pending r' hr').2 with hout | ⟨todo', hres, hin⟩
      · rw [hat] at hout
        cases hout
      · rw [hat] at hres
        cases hres
        exact hin
    · intro cts wm todo' hp
      rw [hat] at hp
      cases hp
    · intro r' c hc v hv
      rcases eq_or_ne r' r with rfl | hne
      · change ((st.db.setRow r' _).rows r').chain = some c at hc
        rw [hself] at hc
        cases hc
        cases hch : (st.db.rows r').chain with
        | none =>
            simp [hch] at hv
        | some c0 =>
            simp only [hch, Option.getD_some] at hv
            exact .inr (.inl ⟨c0, rfl, hv⟩)
      · change ((st.db.setRow r _).rows r').chain = some c at hc
        rw [hrow r' hne] at hc
        exact .inr (.inl ⟨c, hc, hv⟩)
  · cases hstep

/-- Behind `restore_writers_from_overlays` the transaction has no pending entry. -/
theorem GateInv.not_pending (h : GateInv st) (ht : st.db.Live t) (hne : st.at_ t ≠ .outside)
    (hres : ∀ todo, st.at_ t = .restoring todo → todo = []) (r : RowId) :
    (st.db.rows r).pending ≠ some t := by
  intro hp
  rcases ((h.holds t ht).pending r hp).2 with hout | ⟨todo, hat, hin⟩
  · exact hne hout
  · rw [hres todo hat] at hin
    cases hin

/-- A section that works on no row. -/
theorem GateInv.sect {db' : Db} {s : CommitSection} (h : GateInv st) (hne : st.at_ t ≠ .outside)
    (hres : ∀ todo, st.at_ t = .restoring todo → todo = [])
    (htxns : ∀ u, u ≠ t → db'.txns u = st.db.txns u) (hnext : db'.nextTxnId = st.db.nextTxnId)
    (hlive : db'.Live t) (hact : db'.writeActivity = st.db.writeActivity)
    (htxn : (db'.txn t).overlay = (st.db.txn t).overlay ∧
      (db'.txn t).writeSet = (st.db.txn t).writeSet ∧
      (db'.txn t).writtenTabs = (st.db.txn t).writtenTabs)
    (hrows : db'.rows = st.db.rows)
    (hout : ({ st with db := db' }.goTo t s).CountedOut t ↔ st.CountedOut t)
    (hunpub : ∀ cts wm todo, s = .publishing cts wm todo → todo = (st.db.txn t).writeSet)
    (hpub : ∀ cts wm todo, st.at_ t ≠ .publishing cts wm todo) :
    GateInv ({ st with db := db' }.goTo t s) := by
  obtain ⟨ht, href⟩ := h.busy t hne
  refine h.move (stepBy_goTo s htxns hnext) ht hlive hact rfl href htxn hout ?_ ?_ ?_ ?_
    (fun cts wm todo hat => absurd hat (hpub cts wm todo)) ?_
  · intro r u hr
    change (db'.rows r).writer = some u at hr
    rw [hrows] at hr
    exact .inl hr
  · intro r u hr
    change (db'.rows r).pending = some u at hr
    rwa [hrows] at hr
  · intro r hr cts wm todo hat
    change (db'.rows r).writer = some t at hr
    rw [hrows] at hr
    rw [goTo_at] at hat
    rw [hunpub cts wm todo hat]
    exact touches_mem (((h.holds t ht).writer r hr).2.1 href)
  · intro r hr
    change (db'.rows r).pending = some t at hr
    rw [hrows] at hr
    exact absurd hr (h.not_pending ht hne hres r)
  · intro r c hc v hv
    change (db'.rows r).chain = some c at hc
    rw [hrows] at hc
    exact .inr (.inl ⟨c, hc, hv⟩)

theorem modifyTxn_live {db : Db} {f : Transaction → Transaction} (ht : db.Live t)
    (hf : (f (db.txn t)).state = (db.txn t).state) : (db.modifyTxn t f).Live t := by
  rw [live_iff] at ht ⊢
  rw [Db.txn_modifyTxn_self, hf]
  exact ⟨by simp [Db.modifyTxn], ht.2⟩

theorem stamp_inv (h : GateInv st) (hstep : st.stamp t = some st') : GateInv st' := by
  obtain ⟨hat, heq⟩ := Option.ite_none_right_eq_some.1 hstep
  cases heq
  obtain ⟨ht, -⟩ := h.busy t (by rw [hat]; simp)
  generalize (if (st.db.txn t).writeSet ≠ [] ∨ (st.db.txn t).txnMode then st.db.lastCommitTs + 1
    else 0) = cts
  have hlive : (st.db.modifyTxn t fun x => { x with commitTs := cts }).Live t := modifyTxn_live ht rfl
  refine h.sect (by rw [hat]; simp) ?_ (fun u hu => Function.update_of_ne hu _ _) rfl hlive rfl ?_ rfl
    ?_ (by simp) (by rw [hat]; simp)
  · intro todo hres
    rw [hat] at hres
    cases hres
    rfl
  · refine ⟨?_, ?_, ?_⟩ <;> simp [Db.txn, Db.modifyTxn]
  · simp [CountedOut, hat]

theorem leaveActive_inv (h : GateInv st) (hstep : st.leaveActive t = some st') : GateInv st' := by
  unfold leaveActive at hstep
  split at hstep
  · rename_i cts hat
    cases hstep
    obtain ⟨ht, -⟩ := h.busy t (by rw [hat]; simp)
    exact h.sect (by rw [hat]; simp) (by rw [hat]; simp) (fun _ _ => rfl) rfl ht rfl ⟨rfl, rfl, rfl⟩
      rfl (by simp [CountedOut, hat]) (by simp) (by rw [hat]; simp)
  · cases hstep

theorem finishSer_fields (db : Db) (t : TxnId) (committed : Bool) (cts : Ts) :
    (db.finishSer t committed cts).txns = db.txns ∧
    (db.finishSer t committed cts).nextTxnId = db.nextTxnId ∧
    (db.finishSer t committed cts).rows = db.rows ∧
    (db.finishSer t committed cts).writeActivity = db.writeActivity := by
  unfold Db.finishSer
  split <;> exact ⟨rfl, rfl, rfl, rfl⟩

theorem live_congr {db db' : Db} (h : db'.txns = db.txns) : db'.Live u ↔ db.Live u := by
  unfold Db.Live
  rw [h]

theorem finishSer_inv (h : GateInv st) (hstep : st.finishSer t = some st') : GateInv st' := by
  unfold finishSer at hstep
  split at hstep
  · rename_i cts wm hat
    cases hstep
    obtain ⟨ht, -⟩ := h.busy t (by rw [hat]; simp)
    obtain ⟨htxns, hnext, hrows, hact⟩ := finishSer_fields st.db t true cts
    have htxn : (st.db.finishSer t true cts).txn t = st.db.txn t := Db.txn_congr (congrFun htxns t)
    exact h.sect (by rw [hat]; simp) (by rw [hat]; simp) (fun u _ => congrFun htxns u) hnext
      ((live_congr htxns).2 ht) hact (by rw [htxn]; exact ⟨rfl, rfl, rfl⟩) hrows
      (by simp [CountedOut, hat]) (by simp +contextual) (by rw [hat]; simp)
  · cases hstep

theorem endDelKeys_inv (h : GateInv st) (hstep : st.endDelKeys t = some st') : GateInv st' := by
  unfold endDelKeys at hstep
  split at hstep
  · rename_i cts wm hat
    cases hstep
    obtain ⟨ht, -⟩ := h.busy t (by rw [hat]; simp)
    refine h.sect (by rw [hat]; simp) (by rw [hat]; simp) (fun u hu => Function.update_of_ne hu _ _) rfl
      (modifyTxn_live (show (st.db.commitDelKeys t cts wm (st.db.txn t).delKeys).Live t from ht) rfl) rfl ?_ rfl
      (by simp [CountedOut, hat]) (by simp) (by rw [hat]; simp)
    rw [Db.txn_modifyTxn_self]
    exact ⟨rfl, rfl, rfl⟩
  · cases hstep

theorem writeCommit_inv (h : GateInv st) (hstep : st.writeCommit t = some st') : GateInv st' := by
  obtain ⟨hat, heq⟩ := Option.ite_none_right_eq_some.1 hstep
  cases heq
  obtain ⟨ht, -⟩ := h.busy t (by rw [hat]; simp)
  have hlog : ∀ b l, (st.db.logIf b l).txns = st.db.txns ∧ (st.db.logIf b l).nextTxnId = st.db.nextTxnId ∧
      (st.db.logIf b l).rows = st.db.rows ∧ (st.db.logIf b l).writeActivity = st.db.writeActivity := by
    intro b l
    unfold Db.logIf
    split <;> exact ⟨rfl, rfl, rfl, rfl⟩
  obtain ⟨htxns, hnext, hrows, hact⟩ := hlog (!(st.db.txn t).writeSet.isEmpty || (st.db.txn t).txnMode ||
    (st.db.txn t).wroteLog) (.commit t)
  have htxn := Db.txn_congr (congrFun htxns t)
  exact h.sect (by rw [hat]; simp) (by rw [hat]; simp) (fun u _ => congrFun htxns u) hnext
    ((live_congr htxns).2 ht) hact (by rw [htxn]; exact ⟨rfl, rfl, rfl⟩) hrows
    (by simp [CountedOut, hat]) (by simp) (by rw [hat]; simp)

/-- Publishing one row leaves its writers but `t` alone. -/
theorem publishRow_writer_some {cts wm : Ts} {row row' : Row}
    (h : Db.publishRow t cts wm row = some row') (hu : row'.writer = some u) :
    u ≠ t ∧ row.writer = some u := by
  obtain ⟨c', hc', hw⟩ := Row.writer_some.1 hu
  rcases publishRow_cases h with ⟨rfl, hne⟩ | ⟨c, slot, -, -, rfl, -⟩
  · exact ⟨fun heq => hne c' hc' (heq ▸ hw), hu⟩
  · rw [pruneMvccAfterCommit_writer hc'] at hw
    cases hw

/-- A version that is there after publishing was there before, or it is the new one. -/
theorem publishRow_hist {cts wm : Ts} {row row' : Row} (h : Db.publishRow t cts wm row = some row')
    {c' : MvccChain} (hc' : row'.chain = some c') {v : MvccVer} (hv : v ∈ c'.hist) :
    (∃ c, row.chain = some c ∧ v ∈ c.hist) ∨ (row.writer = some t ∧ v.commitTs = cts) := by
  rcases publishRow_cases h with ⟨rfl, -⟩ | ⟨c, slot, hc, hw, rfl, -⟩
  · exact .inl ⟨c', hc', hv⟩
  · obtain ⟨-, hsuf⟩ := prune_suffix hc'
    rcases List.mem_append.1 (hsuf.subset hv) with hold | hnew
    · exact .inl ⟨c, hc, hold⟩
    · rw [List.mem_singleton.1 hnew]
      exact .inr ⟨Row.writer_some.2 ⟨c, hc, hw⟩, rfl⟩

theorem publish_inv (h : GateInv st) (hstep : st.publish t = some st') : GateInv st' := by
  unfold publish at hstep
  split at hstep
  · rename_i cts wm w ws hat
    obtain ⟨row, hpub, heq⟩ := Option.map_eq_some_iff.1 hstep
    cases heq
    obtain ⟨ht, href⟩ := h.busy t (by rw [hat]; simp)
    have hrow : ∀ r', r' ≠ w.row → (st.db.setRow w.row row).rows r' = st.db.rows r' :=
      fun r' hr' => Function.update_of_ne hr' _ _
    have hself : (st.db.setRow w.row row).rows w.row = row := Function.update_self _ _ _
    have hwriter : ∀ r u, ((st.db.setRow w.row row).rows r).writer = some u →
        (st.db.rows r).writer = some u ∧ (u = t → r ≠ w.row) := by
      intro r u hr
      rcases eq_or_ne r w.row with rfl | hne
      · rw [hself] at hr
        obtain ⟨hut, hold⟩ := publishRow_writer_some hpub hr
        exact ⟨hold, fun heq => absurd heq hut⟩
      · rw [hrow r hne] at hr
        exact ⟨hr, fun _ => hne⟩
    have hpending : ∀ r u, ((st.db.setRow w.row row).rows r).pending = some u →
        (st.db.rows r).pending = some u := by
      intro r u hr
      rcases eq_or_ne r w.row with rfl | hne
      · rw [hself] at hr
        rwa [publishRow_pending hpub] at hr
      · rwa [hrow r hne] at hr
    refine h.move (stepBy_goTo _ (fun _ _ => rfl) rfl) ht ht rfl rfl href ⟨rfl, rfl, rfl⟩
      (by simp [CountedOut, hat]) (fun r u hr => .inl (hwriter r u hr).1) hpending ?_ ?_ ?_ ?_
    · intro r hr cts' wm' todo' hat'
      rw [goTo_at] at hat'
      cases hat'
      obtain ⟨hold, hne⟩ := hwriter r t hr
      obtain ⟨w', hw', hwr⟩ := ((h.holds t ht).writer r hold).2.2 cts wm (w :: ws) hat
      rcases List.mem_cons.1 hw' with rfl | hw'
      · exact absurd hwr.symm (hne rfl)
      · exact ⟨w', hw', hwr⟩
    · intro r hr
      exact absurd (hpending r t hr) (h.not_pending ht (by rw [hat]; simp) (by rw [hat]; simp) r)
    · intro cts' wm' todo' hat'
      rw [hat] at hat'
      cases hat'
      exact ⟨wm, ws, goTo_at _ _ _⟩
    · intro r c' hc' v hv
      rcases eq_or_ne r w.row with rfl | hne
      · change ((st.db.setRow w.row row).rows w.row).chain = some c' at hc'
        rw [hself] at hc'
        rcases publishRow_hist hpub hc' hv with hold | ⟨hw, hcts⟩
        · exact .inr (.inl hold)
        · exact .inr (.inr (.inr ⟨t, cts, wm, ws, ht, ((h.holds t ht).writer _ hw).1, goTo_at _ _ _,
            le_of_eq hcts⟩))
      · change ((st.db.setRow w.row row).rows r).chain = some c' at hc'
        rw [hrow r hne] at hc'
        exact .inr (.inl ⟨c', hc', hv⟩)
  · cases hstep

/-- The counter of a table that a live transaction has written is positive. -/
theorem GateInv.writers_pos (h : GateInv st) (ht : st.db.Live t) {tab : TabName}
    (htab : tab ∈ (st.db.txn t).writtenTabs) : 0 < (st.db.writeActivity tab).writers := by
  rw [h.count]
  exact Finset.card_pos.2
    ⟨t, Finset.mem_filter.2 ⟨Finset.mem_range.2 (lt_of_live h.fresh ht), ht, htab⟩⟩

/-- The write activity once `t` is counted out of its tables. -/
theorem endWriteActivity_count (h : GateInv st) (ht : st.db.Live t) (cts : Ts) (tab : TabName) :
    ((st.db.endWriteActivity (st.db.txn t).writtenTabs cts).writeActivity tab).writers +
      (if tab ∈ (st.db.txn t).writtenTabs then 1 else 0) = (st.db.writeActivity tab).writers := by
  show (if tab ∈ (st.db.txn t).writtenTabs then _ else _ : WriteActivity).writers + _ = _
  split
  · rename_i hmem
    have hpos := h.writers_pos ht hmem
    show (st.db.writeActivity tab).writers - 1 + 1 = _
    omega
  · rfl

theorem endWriteActivity_lastCts (db : Db) (tabs : List TabName) (cts : Ts) (tab : TabName) :
    (db.writeActivity tab).lastCts ≤ ((db.endWriteActivity tabs cts).writeActivity tab).lastCts := by
  show _ ≤ (if tab ∈ tabs then _ else _ : WriteActivity).lastCts
  split
  · exact le_max_left _ _
  · exact le_rfl

theorem endActivity_inv (h : GateInv st) (hstep : st.endActivity t = some st') : GateInv st' := by
  unfold endActivity at hstep
  split at hstep
  · rename_i cts wm hat
    cases hstep
    obtain ⟨ht, href⟩ := h.busy t (by rw [hat]; simp)
    have hlive : ((st.db.endWriteActivity (st.db.txn t).writtenTabs cts).modifyTxn t fun x =>
        { x with writtenTabs := [] }).Live t :=
      modifyTxn_live (show (st.db.endWriteActivity (st.db.txn t).writtenTabs cts).Live t from ht) rfl
    have htxn : ((st.db.endWriteActivity (st.db.txn t).writtenTabs cts).modifyTxn t fun x =>
        { x with writtenTabs := [] }).txn t = { st.db.txn t with writtenTabs := [] } :=
      Db.txn_modifyTxn_self _ _ _
    have hothers : ∀ u, u ≠ t → ((st.db.endWriteActivity (st.db.txn t).writtenTabs cts).modifyTxn t
        fun x => { x with writtenTabs := [] }).txns u = st.db.txns u :=
      fun u hu => Function.update_of_ne hu _ _
    have hact : ((st.db.endWriteActivity (st.db.txn t).writtenTabs cts).modifyTxn t fun x =>
        { x with writtenTabs := [] }).writeActivity =
          (st.db.endWriteActivity (st.db.txn t).writtenTabs cts).writeActivity := rfl
    have hrows : ((st.db.endWriteActivity (st.db.txn t).writtenTabs cts).modifyTxn t fun x =>
        { x with writtenTabs := [] }).rows = st.db.rows := rfl
    have hnext : ((st.db.endWriteActivity (st.db.txn t).writtenTabs cts).modifyTxn t fun x =>
        { x with writtenTabs := [] }).nextTxnId = st.db.nextTxnId := rfl
    generalize (st.db.endWriteActivity (st.db.txn t).writtenTabs cts).modifyTxn t (fun x =>
      { x with writtenTabs := [] }) = db1 at hlive htxn hothers hact hrows hnext ⊢
    have hnone : ∀ r, (db1.rows r).writer ≠ some t := by
      intro r hw
      rw [hrows] at hw
      obtain ⟨w, hmem, -⟩ := ((h.holds t ht).writer r hw).2.2 cts wm [] hat
      cases hmem
    have hpend : ∀ r, (db1.rows r).pending ≠ some t := by
      intro r hp
      rw [hrows] at hp
      exact h.not_pending ht (by rw [hat]; simp) (by rw [hat]; simp) r hp
    refine h.of_step (stepBy_goTo _ hothers hnext) ht (fun _ => ⟨hlive, href⟩) ?_ ?_ ?_ ?_ ?_ ?_ ?_
    · intro tab
      show (db1.writeActivity tab).writers + _ =
        _ + if db1.Live t ∧ tab ∈ (db1.txn t).writtenTabs then 1 else 0
      rw [htxn, hact, endWriteActivity_count h ht cts tab]
      simp
    · intro r u _ hr
      change (db1.rows r).writer = some u at hr
      rwa [hrows] at hr
    · intro r u _ hr
      change (db1.rows r).pending = some u at hr
      rwa [hrows] at hr
    · intro _
      refine ⟨?_, fun hn => ?_, fun _ => ?_, fun r hw => absurd hw (hnone r),
        fun r hp => absurd hp (hpend r)⟩
      · intro r hr
        change ((db1.txn t).overlay r).isSome at hr
        show (db1.txn t).touches r = true
        rw [htxn] at hr ⊢
        exact (h.holds t ht).overlay r hr
      · exact absurd (by simp [CountedOut]) hn
      · show (db1.txn t).writtenTabs = []
        rw [htxn]
    · intro tab
      show _ ≤ (db1.writeActivity tab).lastCts
      rw [hact]
      exact endWriteActivity_lastCts _ _ _ _
    · intro cts' wm' todo' hat' tab hmem
      rw [hat] at hat'
      cases hat'
      left
      show _ ≤ (db1.writeActivity tab).lastCts
      rw [hact]
      show _ ≤ (if tab ∈ (st.db.txn t).writtenTabs then _ else _ : WriteActivity).lastCts
      rw [if_pos hmem]
      exact le_max_right _ _
    · intro r c hc v hv
      change (db1.rows r).chain = some c at hc
      rw [hrows] at hc
      exact .inr (.inl ⟨c, hc, hv⟩)
  · cases hstep

theorem reclaimRow_writer {wm : Ts} {row : Row} (h : (Db.reclaimRow wm row).writer = some u) :
    row.writer = some u := by
  rcases reclaimRow_cases wm row with heq | ⟨c, v, -, -, -, -, -, -, heq⟩
  · rwa [heq] at h
  · rw [heq] at h
    cases h

theorem reclaimRow_chain {wm : Ts} {row : Row} {c : MvccChain}
    (h : (Db.reclaimRow wm row).chain = some c) : row.chain = some c := by
  rcases reclaimRow_cases wm row with heq | ⟨c', v, -, -, -, -, -, -, heq⟩
  · rwa [heq] at h
  · rw [heq] at h
    cases h

theorem markAll_fields (db : Db) (ws : List WriteRecord) :
    (ws.foldl (fun (db : Db) (w : WriteRecord) => db.markDirty w.row.tab) db).core =
      { db.core with
        anyMvccDirty := db.anyMvccDirty || !ws.isEmpty
        mvccDirty := fun tab => db.mvccDirty tab || ws.any fun w => w.row.tab = tab } ∧
    (ws.foldl (fun (db : Db) (w : WriteRecord) => db.markDirty w.row.tab) db).writeActivity =
      db.writeActivity :=
  ⟨markAll_core ws db, congrArg Tracks.writeActivity (markAll_tracks db ws)⟩

theorem reclaim_inv (h : GateInv st) (hstep : st.reclaim t = some st') : GateInv st' := by
  unfold reclaim at hstep
  split at hstep
  · rename_i wm w ws hat
    cases hstep
    obtain ⟨ht, href⟩ := h.busy t (by rw [hat]; simp)
    have hrows : ∀ r, (st.db.setRow w.row (Db.reclaimRow wm (st.db.rows w.row))).rows r = st.db.rows r ∨
        (st.db.setRow w.row (Db.reclaimRow wm (st.db.rows w.row))).rows r =
          Db.reclaimRow wm (st.db.rows r) := by
      intro r
      rcases eq_or_ne r w.row with rfl | hne
      · exact .inr (Function.update_self _ _ _)
      · exact .inl (Function.update_of_ne hne _ _)
    have hnone : ∀ r, (st.db.rows r).writer ≠ some t := by
      intro r hw
      have hmem := ((h.holds t ht).writer r hw).1
      rw [(h.holds t ht).counted (by simp [CountedOut, hat])] at hmem
      cases hmem
    have hwriter : ∀ r u, ((st.db.setRow w.row (Db.reclaimRow wm (st.db.rows w.row))).rows r).writer =
        some u → (st.db.rows r).writer = some u := by
      intro r u hr
      rcases hrows r with heq | heq
      · rwa [heq] at hr
      · rw [heq] at hr
        exact reclaimRow_writer hr
    have hpending : ∀ r u, ((st.db.setRow w.row (Db.reclaimRow wm (st.db.rows w.row))).rows r).pending =
        some u → (st.db.rows r).pending = some u := by
      intro r u hr
      rcases hrows r with heq | heq
      · rwa [heq] at hr
      · rwa [heq, reclaimRow_pending] at hr
    refine h.move (stepBy_goTo _ (fun _ _ => rfl) rfl) ht ht rfl rfl href ⟨rfl, rfl, rfl⟩
      (by simp [CountedOut, hat]) (fun r u hr => .inl (hwriter r u hr)) hpending ?_ ?_
      (by rw [hat]; simp) ?_
    · exact fun r hr => absurd (hwriter r t hr) (hnone r)
    · exact fun r hr =>
        absurd (hpending r t hr) (h.not_pending ht (by rw [hat]; simp) (by rw [hat]; simp) r)
    · intro r c hc v hv
      rcases hrows r with heq | heq
      · change ((st.db.setRow w.row _).rows r).chain = some c at hc
        rw [heq] at hc
        exact .inr (.inl ⟨c, hc, hv⟩)
      · change ((st.db.setRow w.row _).rows r).chain = some c at hc
        rw [heq] at hc
        exact .inr (.inl ⟨c, reclaimRow_chain hc, hv⟩)
  · rename_i wm hat
    cases hstep
    obtain ⟨ht, -⟩ := h.busy t (by rw [hat]; simp)
    obtain ⟨hcore, hact⟩ := markAll_fields st.db (st.db.txn t).writeSet
    generalize List.foldl _ st.db (st.db.txn t).writeSet = db' at hcore hact ⊢
    have htxns : db'.txns = st.db.txns := congrArg Core.txns hcore
    have htxn : db'.txn t = st.db.txn t := Db.txn_congr (congrFun htxns t)
    exact h.sect (by rw [hat]; simp) (by rw [hat]; simp) (fun u _ => congrFun htxns u)
      (congrArg Core.nextTxnId hcore) ((live_congr htxns).2 ht) hact
      (by rw [htxn]; exact ⟨rfl, rfl, rfl⟩) (congrArg Core.rows hcore) (by simp [CountedOut, hat])
      (by simp) (by rw [hat]; simp)
  · cases hstep

theorem endTxn_row (db : Db) (t : TxnId) (state : TransactionState) (r : RowId) :
    (db.endTxn t state).rows r = db.rows r ∨
      (db.endTxn t state).rows r = { db.rows r with pending := none } := by
  have heq : (db.endTxn t state).rows r =
      if ((db.txn t).overlay r).isSome ∧ (db.rows r).pending = some t then
        { db.rows r with pending := none } else db.rows r := rfl
  rw [heq]
  split
  · exact .inr rfl
  · exact .inl rfl

theorem finish_inv (h : GateInv st) (hstep : st.finish t = some st') : GateInv st' := by
  obtain ⟨hat, heq⟩ := Option.ite_none_right_eq_some.1 hstep
  cases heq
  obtain ⟨ht, -⟩ := h.busy t (by rw [hat]; simp)
  have hdead : ¬ (st.db.endTxn t .committed).Live t := by
    rw [live_iff, Db.endTxn, Db.txn_modifyTxn_self]
    simp
  have hempty := (h.holds t ht).counted (by simp [CountedOut, hat])
  refine h.of_step (stepBy_goTo _ (fun u hu => Function.update_of_ne hu _ _) rfl) ht
    (fun hne => absurd (goTo_at _ _ _) hne) ?_ ?_ ?_ (fun hl => absurd hl hdead) (fun tab => le_rfl)
    (by rw [hat]; simp) ?_
  · intro tab
    rw [hempty]
    simp only [List.not_mem_nil, if_false]
    rw [if_neg fun hx => hdead hx.1]
    rfl
  · intro r u _ hr
    change ((st.db.endTxn t .committed).rows r).writer = some u at hr
    rcases endTxn_row st.db t .committed r with heq | heq <;> rw [heq] at hr <;> exact hr
  · intro r u _ hr
    change ((st.db.endTxn t .committed).rows r).pending = some u at hr
    rcases endTxn_row st.db t .committed r with heq | heq
    · rwa [heq] at hr
    · rw [heq] at hr
      cases hr
  · intro r c hc v hv
    change ((st.db.endTxn t .committed).rows r).chain = some c at hc
    refine .inr (.inl ⟨c, ?_, hv⟩)
    rcases endTxn_row st.db t .committed r with heq | heq <;> rw [heq] at hc <;> exact hc

end Gated

end Rmdb.Txn
