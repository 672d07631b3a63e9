import Rmdb.Row.Step

/-!
# The state invariant at the ends of transactions

Commit appends one version with the next timestamp to each chain that the transaction
writes, pruning only drops a front part; abort leaves the committed versions alone or drops
them all.  With `step_inv` every state of a run meets `Inv`.
-/

namespace Rmdb.Txn

open Rmdb.Index (Rid)

variable {db db' : Db} {t : TxnId} {cts wm : Ts} {row row' : Row}

/-! ## Published chains -/

/-- The chain after the uncommitted write of `t` becomes a version. -/
def MvccChain.published (c : MvccChain) (t : TxnId) (cts : Ts) : MvccChain :=
  { c with
    hist := c.hist ++ [⟨if c.writerDel then .empty else c.writerData, cts, c.writerDel, some t⟩]
    writer := none, writerData := .empty, holdWriterToCommit := false }

/-- What publishing does to a row. -/
theorem publishRow_cases (h : Db.publishRow t cts wm row = some row') :
    (row' = row ∧ ∀ c, row.chain = some c → c.writer ≠ some t) ∨
    ∃ c slot, row.chain = some c ∧ c.writer = some t ∧
      row' = { row with
        slot := slot, chain := Db.pruneMvccAfterCommit (c.published t cts) wm cts } ∧
      (c.writerDel = true ∧ slot = { row.slot with isRecord := false } ∨
        c.writerDel = false ∧ c.writerData.bytes = [] ∧ slot = row.slot ∨
        c.writerDel = false ∧ c.writerData.bytes ≠ [] ∧ row.slot.isRecord = true ∧
          slot = { row.slot with data := c.writerData }) := by
  unfold Db.publishRow at h
  split at h
  · rename_i hnone
    cases h
    exact .inl ⟨rfl, fun c hc => by rw [hnone] at hc; cases hc⟩
  · rename_i c hc
    split at h
    · rename_i hw
      cases h
      refine .inl ⟨rfl, ?_⟩
      intro c' hc'
      rw [hc] at hc'
      cases hc'
      exact hw
    · rename_i hw
      obtain ⟨slot, hslot, hrow⟩ := Option.map_eq_some_iff.1 h
      refine .inr ⟨c, slot, hc, not_not.1 hw, hrow.symm, ?_⟩
      split at hslot
      · rename_i hdel
        cases hslot
        exact .inl ⟨hdel, rfl⟩
      · rename_i hdel
        have hdel' : c.writerDel = false := by simpa using hdel
        split at hslot
        · rename_i hempty
          cases hslot
          exact .inr (.inl ⟨hdel', hempty, rfl⟩)
        · rename_i hne
          split at hslot
          · rename_i hrec
            cases hslot
            exact .inr (.inr ⟨hdel', hne, hrec, rfl⟩)
          · cases hslot

theorem pruneHist_suffix (hist : List MvccVer) (wm : Ts) : Db.pruneHist hist wm <:+ hist := by
  unfold Db.pruneHist
  split
  · exact List.suffix_rfl
  · exact List.drop_suffix _ _

theorem pruneHist_ne_nil {hist : List MvccVer} (wm : Ts) (h : hist ≠ []) :
    Db.pruneHist hist wm ≠ [] := by
  unfold Db.pruneHist
  split
  · exact h
  · have hpos := List.length_pos_iff.2 h
    rw [ne_eq, List.drop_eq_nil_iff]
    omega

theorem getLast?_toList_suffix {α : Type} (l : List α) : l.getLast?.toList <:+ l := by
  rcases List.eq_nil_or_concat l with rfl | ⟨l', a, rfl⟩
  · exact List.suffix_rfl
  · rw [List.concat_eq_append, List.getLast?_concat]
    exact List.suffix_append l' [a]

/-- Pruning drops a front part of the versions, or the chain. -/
theorem prune_suffix {c c' : MvccChain} (h : Db.pruneMvccAfterCommit c wm cts = some c') :
    c' = { c with hist := c'.hist } ∧ c'.hist <:+ c.hist := by
  unfold Db.pruneMvccAfterCommit at h
  dsimp only at h
  split at h
  · split at h
    · cases h
    · cases h
      exact ⟨rfl, List.suffix_rfl⟩
  · split at h
    · split at h
      · cases h
      · cases h
        exact ⟨rfl, (getLast?_toList_suffix _).trans (pruneHist_suffix _ _)⟩
    · cases h
      exact ⟨rfl, pruneHist_suffix _ _⟩

/-- The newest version survives pruning. -/
theorem prune_getLast {c c' : MvccChain} (h : Db.pruneMvccAfterCommit c wm cts = some c') :
    c'.hist.getLast? = c.hist.getLast? := by
  obtain ⟨-, hsuf⟩ := prune_suffix h
  by_cases hnil : c'.hist = []
  · have hc : c.hist = [] := by
      unfold Db.pruneMvccAfterCommit at h
      dsimp only at h
      split at h
      · split at h
        · cases h
        · cases h
          exact hnil
      · rename_i hlen
        have hpos := pruneHist_ne_nil wm (List.ne_nil_of_length_pos (by omega : 0 < c.hist.length))
        split at h
        · split at h
          · cases h
          · cases h
            simp only [Option.toList_eq_nil_iff, List.getLast?_eq_none_iff] at hnil
            exact absurd hnil hpos
        · cases h
          exact absurd hnil hpos
    rw [hnil, hc]
  · obtain ⟨front, hfront⟩ := hsuf
    rw [← hfront, List.getLast?_append_of_ne_nil _ hnil]

theorem HistOk.mono {ts ts' : Ts} (h : HistOk ts row) (hle : ts ≤ ts') : HistOk ts' row :=
  fun c hc => ⟨fun v hv => le_trans ((h c hc).1 v hv) hle, (h c hc).2⟩

theorem publishRow_histOk {ts : Ts} (hh : HistOk ts row) (hlt : ts < cts)
    (h : Db.publishRow t cts wm row = some row') : HistOk cts row' := by
  rcases publishRow_cases h with ⟨rfl, -⟩ | ⟨c, slot, hc, -, rfl, -⟩
  · exact hh.mono (le_of_lt hlt)
  · obtain ⟨hle, hord⟩ := hh c hc
    intro c' hc'
    obtain ⟨-, hsuf⟩ := prune_suffix hc'
    have hle' : ∀ v ∈ (c.published t cts).hist, v.commitTs ≤ cts := by
      intro v hv
      rcases List.mem_append.1 hv with hv | hv
      · exact le_trans (hle v hv) (le_of_lt hlt)
      · rw [List.mem_singleton.1 hv]
    have hord' : (c.published t cts).hist.Pairwise fun v w => v.commitTs < w.commitTs := by
      refine List.pairwise_append.2 ⟨hord, List.pairwise_singleton _ _, ?_⟩
      intro v hv w hw
      rw [List.mem_singleton.1 hw]
      exact lt_of_le_of_lt (hle v hv) hlt
    exact ⟨fun v hv => hle' v (hsuf.subset hv), hord'.sublist hsuf.sublist⟩

theorem reclaimRow_histOk {ts : Ts} (h : HistOk ts row) : HistOk ts (Db.reclaimRow wm row) := by
  rcases reclaimRow_cases wm row with heq | ⟨c, v, -, -, -, -, -, -, heq⟩
  · rw [heq]
    exact h
  · rw [heq]
    intro c' hc'
    cases hc'

theorem undoRow_hist (t : TxnId) : ∀ (ws : List WriteRecord) (undone : Bool) (row : Row)
    (c : MvccChain), (undoRow t ws undone row).chain = some c →
      (∃ c0, row.chain = some c0 ∧ c.hist = c0.hist) ∨ c.hist = [] := by
  intro ws
  induction ws with
  | nil => exact fun _ row c hc => .inl ⟨c, hc, rfl⟩
  | cons w ws ih =>
      intro undone row c hc
      unfold undoRow at hc
      split at hc
      · rename_i c1 hfilter
        obtain ⟨hc1, -⟩ := Option.filter_eq_some_iff.1 hfilter
        rcases ih _ _ _ hc with ⟨c0, hc0, heq⟩ | hnil
        · cases hc0
          exact .inl ⟨c1, hc1, heq⟩
        · exact .inr hnil
      · rcases ih _ _ _ hc with ⟨c0, hc0, heq⟩ | hnil
        · split at hc0
          · exact .inl ⟨c0, hc0, heq⟩
          · unfold Db.physicalUndoRow at hc0
            dsimp only at hc0
            split at hc0
            · cases hc0
              exact .inr heq
            · split at hc0 <;> exact .inl ⟨c0, hc0, heq⟩
            · split at hc0 <;> exact .inl ⟨c0, hc0, heq⟩
        · exact .inr hnil

theorem undoRow_histOk {ts : Ts} (h : HistOk ts row) (ws : List WriteRecord) (undone : Bool) :
    HistOk ts (undoRow t ws undone row) := by
  intro c hc
  rcases undoRow_hist t ws undone row c hc with ⟨c0, hc0, heq⟩ | hnil
  · rw [heq]
    exact h c0 hc0
  · rw [hnil]
    exact ⟨fun v hv => (List.not_mem_nil hv).elim, List.Pairwise.nil⟩

theorem undoRow_nil_of_untouched {x : Transaction} {r : RowId} (h : x.touches r = false) (row : Row) :
    undoRow t (x.writeSet.reverse.filter fun w => w.row = r) false row = row := by
  have hnil : (x.writeSet.reverse.filter fun w => decide (w.row = r)) = [] := by
    rw [List.filter_eq_nil_iff]
    intro w hw hwr
    rw [List.mem_reverse] at hw
    have : x.touches r = true := List.any_eq_true.2 ⟨w, hw, hwr⟩
    rw [h] at this
    cases this
  rw [hnil]
  rfl

/-- A row whose version is undone stays as it is. -/
theorem undoRow_done (t : TxnId) : ∀ (ws : List WriteRecord) (row : Row),
    (∀ c, row.chain = some c → c.writer ≠ some t) → undoRow t ws true row = row := by
  intro ws
  induction ws with
  | nil => exact fun _ _ => rfl
  | cons w ws ih =>
      intro row h
      have hnone : (row.chain.filter fun c => decide (c.writer = some t)) = none := by
        cases hc : row.chain with
        | none => rfl
        | some c => simp [Option.filter, h c hc]
      simp only [undoRow, hnone, if_true]
      exact ih row h

/-- However many records name the row, its uncommitted version is undone once. -/
theorem undoRow_versioned {x : Transaction} {r : RowId} {c : MvccChain} (h : x.touches r = true)
    (hc : row.chain = some c) (hw : c.writer = some t) :
    undoRow t (x.writeSet.reverse.filter fun w => w.row = r) false row = Db.undoVersionedRow c row := by
  have hfilter : (row.chain.filter fun c => decide (c.writer = some t)) = some c := by
    simp [hc, Option.filter, hw]
  cases hws : x.writeSet.reverse.filter fun w => decide (w.row = r) with
  | nil =>
      rw [List.filter_eq_nil_iff] at hws
      obtain ⟨w, hmem, hwr⟩ := List.any_eq_true.1 h
      exact absurd hwr (hws w (List.mem_reverse.2 hmem))
  | cons w ws =>
      simp only [undoRow, hfilter]
      refine undoRow_done t ws _ ?_
      intro c' hc'
      cases hc'
      exact fun hn => by cases hn

theorem restored_slot (db : Db) (t : TxnId) (r : RowId) : (db.restored t r).slot = (db.rows r).slot := by
  unfold Db.restored Db.restoreWritersFromOverlays
  dsimp only
  split <;> rfl

/-! ## Counters -/

/-- The transactions below `n` but `t`. -/
theorem card_end {p q : TxnId → Prop} [DecidablePred p] [DecidablePred q] {n : Nat} (ht : t < n)
    (hne : ∀ u, u ≠ t → (p u ↔ q u)) (hp : ¬ p t) :
    ((Finset.range n).filter p).card =
      ((Finset.range n).filter q).card - if q t then 1 else 0 := by
  have heq : (Finset.range n).filter p = ((Finset.range n).filter q).erase t := by
    ext u
    simp only [Finset.mem_filter, Finset.mem_range, Finset.mem_erase]
    constructor
    · rintro ⟨hu, hpu⟩
      have hut : u ≠ t := fun h => hp (h ▸ hpu)
      exact ⟨hut, hu, (hne u hut).1 hpu⟩
    · rintro ⟨hut, hu, hqu⟩
      exact ⟨hu, (hne u hut).2 hqu⟩
  rw [heq]
  split
  · rename_i hq
    exact Finset.card_erase_of_mem (Finset.mem_filter.2 ⟨Finset.mem_range.2 ht, hq⟩)
  · rename_i hq
    rw [Finset.erase_eq_of_notMem fun h => hq (Finset.mem_filter.1 h).2, Nat.sub_zero]

/-- The parts of `Inv` that commit and abort share: `t` has ended, the others are as before. -/
structure Ended (db db' : Db) (t : TxnId) : Prop where
  others : ∀ u, u ≠ t → db'.txns u = db.txns u
  self : ∃ x, db'.txns t = some x ∧ ¬ x.live ∧ x.writeSet = [] ∧ (x.overlay = fun _ => none) ∧
    x.readTs = (db.txn t).readTs
  nextTxnId : db'.nextTxnId = db.nextTxnId
  lastCommitTs : db.lastCommitTs ≤ db'.lastCommitTs
  activeRts : db'.activeRts = db.activeRts.erase (db.txn t).readTs
  activeExplicitCount : db'.activeExplicitCount =
    db.activeExplicitCount - if (db.txn t).txnMode then 1 else 0
  dirty : ∀ tab, db.tableIsDirty tab = true → db'.tableIsDirty tab = true

theorem Ended.not_live (h : Ended db db' t) : ¬ db'.Live t := by
  obtain ⟨x, hx, hl, -⟩ := h.self
  rintro ⟨y, hy, hly⟩
  rw [hx] at hy
  cases hy
  exact hl hly

theorem Ended.live_iff (h : Ended db db' t) {u : TxnId} (hu : u ≠ t) : db'.Live u ↔ db.Live u := by
  unfold Db.Live
  rw [h.others u hu]

theorem Ended.inv (h : Ended db db' t) (hI : Inv db) (ht : db.Live t) (hchains : db'.ChainsDirty)
    (hhist : ∀ r, HistOk db'.lastCommitTs (db'.rows r)) : Inv db' := by
  obtain ⟨x, hx, hl, hws, hov, hrts⟩ := h.self
  have htn := hI.lt_next ht
  refine ⟨hchains, ?_, ?_, ?_, ?_, hhist, ?_, ?_⟩
  · intro u hu
    rw [h.nextTxnId] at hu
    have hut : u ≠ t := by
      rintro rfl
      exact absurd htn (Nat.not_lt.2 hu)
    rw [h.others u hut]
    exact hI.fresh u hu
  · intro u y hy hnl
    rcases eq_or_ne u t with rfl | hu
    · rw [hx] at hy
      cases hy
      exact ⟨hws, hov⟩
    · rw [h.others u hu] at hy
      exact hI.ended u y hy hnl
  · intro u y hy
    rcases eq_or_ne u t with rfl | hu
    · rw [hx] at hy
      cases hy
      rw [hrts]
      obtain ⟨z, hz, -⟩ := ht
      rw [Db.txn, hz]
      exact le_trans (hI.snapshots u z hz) h.lastCommitTs
    · rw [h.others u hu] at hy
      exact le_trans (hI.snapshots u y hy) h.lastCommitTs
  · intro u r hr
    rcases eq_or_ne u t with rfl | hu
    · rw [Db.txn, hx, Option.getD_some, hov] at hr
      cases hr
    · rw [Db.txn_congr (h.others u hu)] at hr ⊢
      have h1 := hI.overlays u r hr
      exact ⟨h1.1, h.dirty _ h1.2⟩
  · have hopen : ∀ u, u ≠ t → (db'.open? u = true ↔ db.open? u = true) := by
      intro u hu
      unfold Db.open?
      rw [h.others u hu]
    have hnot : ¬ db'.open? t = true := fun ho => h.not_live (live_of_open ho)
    rw [h.activeExplicitCount, h.nextTxnId, card_end htn hopen hnot, hI.count]
    congr 1
    have hiff : db.open? t = true ↔ (db.txn t).txnMode = true := by
      rw [open_iff]
      obtain ⟨h1, h2⟩ := Txn.live_iff.1 ht
      simp [h1, h2]
    simp only [hiff]
  · intro ts
    have hlive : ∀ u, u ≠ t → ((db'.Live u ∧ (db'.txn u).readTs = ts) ↔
        (db.Live u ∧ (db.txn u).readTs = ts)) := by
      intro u hu
      rw [h.live_iff hu, Db.txn_congr (h.others u hu)]
    have hnot : ¬ (db'.Live t ∧ (db'.txn t).readTs = ts) := fun ho => h.not_live ho.1
    rw [h.activeRts, h.nextTxnId, card_end htn hlive hnot, List.count_erase, hI.active]
    congr 1
    simp [ht]

/-! ## Commit, abort and the other steps -/

theorem Committed.ended (h : Committed db db' t) : Ended db db' t where
  others := h.others
  self := ⟨_, h.self, by simp [Transaction.live], rfl, rfl, rfl⟩
  nextTxnId := h.nextTxnId
  lastCommitTs := by rw [h.lastCommitTs]; exact le_max_left _ _
  activeRts := h.activeRts
  activeExplicitCount := h.activeExplicitCount
  dirty := by
    intro tab htab
    simp only [Db.tableIsDirty, Bool.and_eq_true] at htab ⊢
    rw [h.anyMvccDirty, h.mvccDirty, htab.1, htab.2]
    exact ⟨rfl, rfl⟩

theorem Aborted.ended (h : Aborted db db' t) : Ended db db' t where
  others := h.others
  self := ⟨_, h.self, by simp [Transaction.live], rfl, rfl, rfl⟩
  nextTxnId := h.nextTxnId
  lastCommitTs := le_of_eq h.lastCommitTs.symm
  activeRts := h.activeRts
  activeExplicitCount := h.activeExplicitCount
  dirty := h.dirty

theorem touches_mem {x : Transaction} {r : RowId} (h : x.touches r = true) :
    ∃ w ∈ x.writeSet, w.row = r := by
  simpa [Transaction.touches] using h

theorem restored_untouched (hI : Inv db) {r : RowId} (h : (db.txn t).touches r = false) :
    db.restored t r = db.rows r := by
  apply restored_of_none
  by_contra hne
  have := (hI.overlays t r (Option.isSome_iff_ne_none.2 hne)).1
  rw [h] at this
  cases this

theorem Committed.dirty_of_touches (h : Committed db db' t) {r : RowId}
    (hr : (db.txn t).touches r = true) : db'.tableIsDirty r.tab = true := by
  obtain ⟨w, hw, hwr⟩ := touches_mem hr
  simp only [Db.tableIsDirty, Bool.and_eq_true]
  rw [h.anyMvccDirty, h.mvccDirty]
  constructor
  · cases hws : (db.txn t).writeSet with
    | nil => rw [hws] at hw; cases hw
    | cons w' ws => simp
  · rw [Bool.or_eq_true]
    right
    exact List.any_eq_true.2 ⟨w, hw, by simp [hwr]⟩

/-- The commit timestamp of a transaction that wrote something is the next one. -/
theorem nextCts_of_touches {r : RowId} (h : (db.txn t).touches r = true) :
    db.nextCts t = db.lastCommitTs + 1 := by
  obtain ⟨w, hw, -⟩ := touches_mem h
  unfold Db.nextCts
  rw [if_pos (.inl (List.ne_nil_of_mem hw))]

theorem Committed.inv (h : Committed db db' t) (hI : Inv db) (ht : db.Live t) : Inv db' := by
  refine h.ended.inv hI ht ?_ ?_
  · intro r hr
    cases htouch : (db.txn t).touches r with
    | true => exact h.dirty_of_touches htouch
    | false =>
        rw [h.untouched r htouch, restored_untouched hI htouch] at hr
        exact h.ended.dirty _ (hI.chains r hr)
  · intro r
    rw [h.lastCommitTs]
    cases htouch : (db.txn t).touches r with
    | true =>
        obtain ⟨row, hpub, hrow⟩ := h.touched r htouch
        have hcts := nextCts_of_touches htouch
        rw [hrow]
        refine (reclaimRow_histOk (publishRow_histOk (restored_histOk (hI.hist r)) ?_ hpub)).mono
          (le_max_right _ _)
        rw [hcts]
        exact Nat.lt_succ_self _
    | false =>
        rw [h.untouched r htouch]
        exact (restored_histOk (hI.hist r)).mono (le_max_left _ _)

theorem Aborted.inv (h : Aborted db db' t) (hI : Inv db) (ht : db.Live t) : Inv db' := by
  refine h.ended.inv hI ht ?_ ?_
  · intro r hr
    rcases h.chains r hr with hres | hd
    · cases hov : (db.txn t).overlay r with
      | none =>
          rw [restored_of_none hov] at hres
          exact h.dirty _ (hI.chains r hres)
      | some ov => exact h.dirty _ (hI.overlays t r (by rw [hov]; rfl)).2
    · exact hd
  · intro r
    rw [h.lastCommitTs, h.rows r]
    exact undoRow_histOk (restored_histOk (hI.hist r)) _ _

theorem createIndex_inv (hI : Inv db) (tab : TabName) (cols : List ColMeta) :
    Inv (db.createIndex tab cols) :=
  ⟨hI.chains, hI.fresh, hI.ended, hI.snapshots, hI.overlays, hI.hist, hI.count, hI.active⟩

theorem boot_inv (tabs : TabName → TabMeta) (files : TabName → RmFileHdr) (heap : RowId → Slot)
    (index : IndexId → IndexMap) : Inv (Db.boot tabs files heap index) where
  chains := fun r hr => by cases hr
  fresh := fun _ _ => rfl
  ended := fun u x hx => by cases hx
  snapshots := fun u x hx => by cases hx
  overlays := fun u r hr => by cases hr
  hist := fun r c hc => by cases hc
  count := rfl
  active := fun _ => rfl

theorem Stepped.inv {a : Action} (h : Stepped db a db') (hI : Inv db) : Inv db' := by
  cases h with
  | begin iso => exact begin_inv hI true iso
  | stmt hopen h =>
      obtain ⟨hI', hl'⟩ := h.inv (live_of_open hopen) hI
      exact release_inv hI' hl'
  | stmtAbort hopen h =>
      obtain ⟨hI', hl'⟩ := h.inv (live_of_open hopen) hI
      exact (abort_spec hl'.live).inv hI' hl'
  | auto h hc =>
      obtain ⟨hI', hl'⟩ := h.inv (begin_live db _ _) (begin_inv hI _ _)
      exact (commit_spec hl'.live hc).inv hI' hl'
  | autoAbort h =>
      obtain ⟨hI', hl'⟩ := h.inv (begin_live db _ _) (begin_inv hI _ _)
      exact (abort_spec hl'.live).inv hI' hl'
  | commit hopen hc => exact (commit_spec (live_of_open hopen).live hc).inv hI (live_of_open hopen)
  | abort hopen => exact (abort_spec (live_of_open hopen).live).inv hI (live_of_open hopen)
  | createIndex => exact createIndex_inv hI _ _

theorem step_inv {a : Action} (hI : Inv db) (h : step db a = some db') : Inv db' :=
  (step_stepped hI.chains h).inv hI

end Rmdb.Txn
