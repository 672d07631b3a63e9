import Rmdb.Txn.Ser

/-!
# The SSI graph and its reverse indexes

An rw edge is stored at both of its ends, a read in the entry of its transaction and in the
index the writers look it up in.  `Graph` says that the two agree; every operation on `ser_`
keeps it (`SerState.Graph.call`), so it holds after any sequence of them (`calls_consistent`).
-/

namespace Rmdb.Txn

namespace SerState

variable {metas : TabName → TabMeta} {s s' : SerState} {t u r w : TxnId} {f : SerInfo → SerInfo}

/-- The entry of `t`; the empty one for a transaction without an entry. -/
def info (s : SerState) (t : TxnId) : SerInfo := (s.find t).getD {}

/-- The compiled forms of the predicates of `t` on `tab` that compile. -/
def compiledPreds (metas : TabName → TabMeta) (s : SerState) (t : TxnId) (tab : TabName) :
    List (List SerCompiledCond) :=
  ((s.info t).readPreds.filter fun p => p.1 = tab).filterMap fun p => serCompilePred tab (metas tab) p.2

/-- What is stored twice is the same in both places. -/
structure Consistent (metas : TabName → TabMeta) (s : SerState) : Prop where
  edges : ∀ r w, (∃ i, s.find r = some i ∧ w ∈ i.outRw) ↔ (∃ i, s.find w = some i ∧ r ∈ i.inRw)
  rids : ∀ t row, t ∈ s.ridReaders row ↔ ∃ i, s.find t = some i ∧ row ∈ i.readRids
  preds : ∀ t tab, ((s.predReaders tab).lookup t).getD [] = s.compiledPreds metas t tab

/-- The invariant: consistent, no edge from a transaction to itself, and sets without repetition. -/
structure Graph (metas : TabName → TabMeta) (s : SerState) : Prop where
  edges : ∀ r w, w ∈ (s.info r).outRw ↔ r ∈ (s.info w).inRw
  irrefl : ∀ t, t ∉ (s.info t).outRw
  outNodup : ∀ t, (s.info t).outRw.Nodup
  inNodup : ∀ t, (s.info t).inRw.Nodup
  rids : ∀ t row, t ∈ s.ridReaders row ↔ row ∈ (s.info t).readRids
  ridNodup : ∀ row, (s.ridReaders row).Nodup
  preds : ∀ t tab, ((s.predReaders tab).lookup t).getD [] = s.compiledPreds metas t tab

/-! ## Entries -/

theorem info_of_find {i : SerInfo} (h : s.find t = some i) : s.info t = i := by
  unfold info
  rw [h, Option.getD_some]

theorem exists_find_iff (P : SerInfo → Prop) (hP : ¬ P {}) :
    (∃ i, s.find t = some i ∧ P i) ↔ P (s.info t) := by
  unfold info
  cases s.find t with
  | none => simp [hP]
  | some i => simp

theorem Graph.consistent (h : Graph metas s) : Consistent metas s where
  edges := by
    intro r w
    rw [exists_find_iff (fun i => w ∈ i.outRw) (List.not_mem_nil),
      exists_find_iff (fun i => r ∈ i.inRw) (List.not_mem_nil)]
    exact h.edges r w
  rids := by
    intro t row
    rw [exists_find_iff (fun i => row ∈ i.readRids) (List.not_mem_nil)]
    exact h.rids t row
  preds := h.preds

theorem lookup_map_self (l : List (TxnId × SerInfo)) :
    (l.map fun e => if e.1 = t then (e.1, f e.2) else e).lookup t = (l.lookup t).map f := by
  induction l with
  | nil => rfl
  | cons e l ih =>
      obtain ⟨k, i⟩ := e
      by_cases hk : k = t
      · subst hk
        simp
      · have hne : (t == k) = false := by simpa using Ne.symm hk
        rw [List.map_cons, if_neg hk, List.lookup_cons, List.lookup_cons, hne]
        exact ih

theorem lookup_map_of_ne (hu : u ≠ t) (l : List (TxnId × SerInfo)) :
    (l.map fun e => if e.1 = t then (e.1, f e.2) else e).lookup u = l.lookup u := by
  induction l with
  | nil => rfl
  | cons e l ih =>
      obtain ⟨k, i⟩ := e
      by_cases hk : k = t
      · subst hk
        have hne : (u == k) = false := by simpa using hu
        rw [List.map_cons, if_pos rfl, List.lookup_cons, List.lookup_cons, hne]
        exact ih
      · rw [List.map_cons, if_neg hk, List.lookup_cons, List.lookup_cons, ih]

theorem lookup_filter_ne {β : Type} (l : List (TxnId × β)) :
    (l.filter fun e => decide (e.1 ≠ t)).lookup u = if u = t then none else l.lookup u := by
  induction l with
  | nil => simp
  | cons e l ih =>
      obtain ⟨k, i⟩ := e
      by_cases hk : k = t
      · subst hk
        rw [List.filter_cons_of_neg (by simp), ih, List.lookup_cons]
        by_cases hu : u = k
        · rw [if_pos hu, if_pos hu]
        · have hne : (u == k) = false := by simpa using hu
          rw [if_neg hu, if_neg hu, hne]
      · rw [List.filter_cons_of_pos (by simpa using hk), List.lookup_cons, List.lookup_cons, ih]
        by_cases hu : u = t
        · subst hu
          have hne : (u == k) = false := by simpa using Ne.symm hk
          rw [if_pos rfl, if_pos rfl, hne]
        · rw [if_neg hu, if_neg hu]

@[simp] theorem info_modify_self : (s.modify t f).info t = f (s.info t) := by
  unfold info find modify
  dsimp only
  split
  · rename_i hsome
    obtain ⟨i, hi⟩ := Option.isSome_iff_exists.1 hsome
    have hi' : s.infos.lookup t = some i := hi
    rw [lookup_map_self, hi']
    rfl
  · rename_i hnone
    have hnone' : s.infos.lookup t = none := Option.not_isSome_iff_eq_none.1 hnone
    rw [List.lookup_append, hnone']
    simp

@[simp] theorem info_modify_of_ne (hu : u ≠ t) : (s.modify t f).info u = s.info u := by
  unfold info find modify
  dsimp only
  split
  · rw [lookup_map_of_ne hu]
  · have hne : (u == t) = false := by simpa using hu
    rw [List.lookup_append, List.lookup_cons, hne]
    simp

theorem info_modify (u : TxnId) : (s.modify t f).info u = if u = t then f (s.info u) else s.info u := by
  by_cases hu : u = t
  · subst hu
    rw [info_modify_self, if_pos rfl]
  · rw [info_modify_of_ne hu, if_neg hu]

theorem info_modifyIf (hf : f {} = {}) (u : TxnId) :
    (s.modifyIf t f).info u = if u = t then f (s.info u) else s.info u := by
  unfold modifyIf
  split
  · exact info_modify u
  · rename_i hnone
    by_cases hu : u = t
    · subst hu
      have h : s.info u = {} := by
        unfold info
        rw [Option.not_isSome_iff_eq_none.1 hnone]
        rfl
      rw [h, hf, if_pos rfl]
    · rw [if_neg hu]

/-- An operation that changes neither edges nor reads keeps the graph. -/
theorem Graph.congr (h : Graph metas s) (hout : ∀ u, (s'.info u).outRw = (s.info u).outRw)
    (hin : ∀ u, (s'.info u).inRw = (s.info u).inRw)
    (hrids : ∀ u, (s'.info u).readRids = (s.info u).readRids)
    (hpreds : ∀ u, (s'.info u).readPreds = (s.info u).readPreds)
    (hrr : s'.ridReaders = s.ridReaders) (hpr : s'.predReaders = s.predReaders) : Graph metas s' where
  edges := by
    intro r w
    rw [hout, hin]
    exact h.edges r w
  irrefl := by
    intro t
    rw [hout]
    exact h.irrefl t
  outNodup := by
    intro t
    rw [hout]
    exact h.outNodup t
  inNodup := by
    intro t
    rw [hin]
    exact h.inNodup t
  rids := by
    intro t row
    rw [hrr, hrids]
    exact h.rids t row
  ridNodup := by
    intro row
    rw [hrr]
    exact h.ridNodup row
  preds := by
    intro t tab
    unfold compiledPreds
    rw [hpr, hpreds]
    exact h.preds t tab

/-- `read_ts`, `commit_ts` and `committed` are no part of the graph. -/
theorem Graph.modify (h : Graph metas s) (hout : ∀ i, (f i).outRw = i.outRw)
    (hin : ∀ i, (f i).inRw = i.inRw) (hrids : ∀ i, (f i).readRids = i.readRids)
    (hpreds : ∀ i, (f i).readPreds = i.readPreds) : Graph metas (s.modify t f) := by
  have hany : ∀ {β : Type} (g : SerInfo → β), (∀ i, g (f i) = g i) → ∀ u,
      g ((s.modify t f).info u) = g (s.info u) := by
    intro β g hg u
    rw [info_modify]
    split
    · exact hg _
    · rfl
  exact h.congr (hany _ hout) (hany _ hin) (hany _ hrids) (hany _ hpreds) rfl rfl

/-! ## Reads -/

theorem Graph.recordRead (h : Graph metas s) (t : TxnId) (readTs : Ts) (r : RowId) :
    Graph metas (s.recordRead t readTs r) := by
  have hinfo : ∀ u, (s.recordRead t readTs r).info u = if u = t then
      { s.info u with readTs := readTs, readRids := (s.info u).readRids ++ [r] } else s.info u :=
    fun u => info_modify (s := s) (t := t)
      (f := fun i => { i with readTs := readTs, readRids := i.readRids ++ [r] }) u
  have hpart : ∀ {β : Type} (g : SerInfo → β), (∀ i : SerInfo, g { i with readTs := readTs, readRids :=
      i.readRids ++ [r] } = g i) → ∀ u, g ((s.recordRead t readTs r).info u) = g (s.info u) := by
    intro β g hg u
    rw [hinfo]
    split
    · exact hg _
    · rfl
  have hout := hpart SerInfo.outRw fun _ => rfl
  have hin := hpart SerInfo.inRw fun _ => rfl
  have hpreds := hpart SerInfo.readPreds fun _ => rfl
  have hreaders : ∀ row, (s.recordRead t readTs r).ridReaders row =
      if row = r then (s.ridReaders r).insert t else s.ridReaders row := by
    intro row
    show Function.update s.ridReaders r ((s.ridReaders r).insert t) row = _
    rw [Function.update_apply]
  constructor
  · intro r' w
    rw [hout, hin]
    exact h.edges r' w
  · intro u
    rw [hout]
    exact h.irrefl u
  · intro u
    rw [hout]
    exact h.outNodup u
  · intro u
    rw [hin]
    exact h.inNodup u
  · intro u row
    have hold := h.rids u row
    rw [hreaders, hinfo]
    by_cases hu : u = t
    · subst hu
      by_cases hrow : row = r
      · subst hrow
        simp
      · simp [hrow, hold]
    · by_cases hrow : row = r
      · subst hrow
        simp [hu, hold]
      · simp [hrow, hu, hold]
  · intro row
    rw [hreaders]
    split
    · exact (h.ridNodup r).insert
    · exact h.ridNodup row
  · intro u tab
    unfold compiledPreds
    rw [hpreds]
    exact h.preds u tab

theorem Graph.recordPred (h : Graph metas s) (t : TxnId) (readTs : Ts) (tab : TabName)
    (conds : List Condition) : Graph metas (s.recordPred (metas tab) t readTs tab conds) := by
  have hinfo : ∀ u, (s.recordPred (metas tab) t readTs tab conds).info u = if u = t then
      { s.info u with readTs := readTs, readPreds := (s.info u).readPreds ++ [(tab, conds)] }
      else s.info u := by
    intro u
    have hmodify := info_modify (s := s) (t := t)
      (f := fun i => { i with readTs := readTs, readPreds := i.readPreds ++ [(tab, conds)] }) u
    unfold SerState.recordPred
    split
    · exact hmodify
    · exact hmodify
  have hpart : ∀ {β : Type} (g : SerInfo → β), (∀ i : SerInfo, g { i with readTs := readTs, readPreds :=
      i.readPreds ++ [(tab, conds)] } = g i) → ∀ u,
      g ((s.recordPred (metas tab) t readTs tab conds).info u) = g (s.info u) := by
    intro β g hg u
    rw [hinfo]
    split
    · exact hg _
    · rfl
  have hout := hpart SerInfo.outRw fun _ => rfl
  have hin := hpart SerInfo.inRw fun _ => rfl
  have hrids := hpart SerInfo.readRids fun _ => rfl
  have hrr : (s.recordPred (metas tab) t readTs tab conds).ridReaders = s.ridReaders := by
    unfold SerState.recordPred
    split
    · rfl
    · rfl
  constructor
  · intro r w
    rw [hout, hin]
    exact h.edges r w
  · intro u
    rw [hout]
    exact h.irrefl u
  · intro u
    rw [hout]
    exact h.outNodup u
  · intro u
    rw [hin]
    exact h.inNodup u
  · intro u row
    rw [hrr, hrids]
    exact h.rids u row
  · intro row
    rw [hrr]
    exact h.ridNodup row
  · intro u tab'
    have hold := h.preds u tab'
    have hcompiled : (s.recordPred (metas tab) t readTs tab conds).compiledPreds metas u tab' =
        s.compiledPreds metas u tab' ++
          (if u = t ∧ tab' = tab then (serCompilePred tab (metas tab) conds).toList else []) := by
      unfold compiledPreds
      rw [hinfo]
      by_cases hu : u = t
      · rw [if_pos hu]
        dsimp only
        rw [List.filter_append, List.filterMap_append]
        by_cases htab : tab' = tab
        · subst htab
          rw [if_pos ⟨hu, rfl⟩, List.filter_cons_of_pos (by simp)]
          cases hc : serCompilePred tab' (metas tab') conds <;> simp [hc]
        · rw [if_neg fun hh => htab hh.2, List.filter_cons_of_neg (by simpa using Ne.symm htab)]
          rfl
      · rw [if_neg hu, if_neg fun hh => hu hh.1, List.append_nil]
    rw [hcompiled, ← hold]
    unfold SerState.recordPred
    cases hc : serCompilePred tab (metas tab) conds with
    | none => simp only [Option.toList_none, ite_self, List.append_nil]; rfl
    | some cc =>
        show ((Function.update s.predReaders tab
          ((s.predReaders tab).filter (fun e => decide (e.1 ≠ t)) ++
            [(t, ((s.predReaders tab).lookup t).getD [] ++ [cc])]) tab').lookup u).getD [] = _
        rw [Function.update_apply]
        by_cases htab : tab' = tab
        · subst htab
          rw [if_pos rfl, List.lookup_append, lookup_filter_ne]
          by_cases hu : u = t
          · subst hu
            simp
          · have hne : (u == t) = false := by simpa using hu
            rw [if_neg hu, if_neg fun hh => hu hh.1, List.lookup_cons, hne]
            simp
        · rw [if_neg htab, if_neg fun hh => htab hh.2, List.append_nil]

/-! ## Edges -/

theorem addEdge_fst (hne : r ≠ w) : (s.addEdge r w).1 =
    (s.modify w fun i => { i with inRw := i.inRw.insert r }).modify r fun i =>
      { i with outRw := i.outRw.insert w } := by
  unfold addEdge
  rw [if_neg hne]

theorem Graph.addEdge (h : Graph metas s) (r w : TxnId) : Graph metas (s.addEdge r w).1 := by
  by_cases hne : r = w
  · unfold SerState.addEdge
    rw [if_pos hne]
    exact h
  rw [addEdge_fst hne]
  generalize hs1 : (s.modify w fun i => { i with inRw := i.inRw.insert r }) = s1
  have hinfo1 : ∀ u, s1.info u = if u = w then { s.info u with inRw := (s.info u).inRw.insert r }
      else s.info u := by
    intro u
    rw [← hs1]
    exact info_modify u
  have hinfo : ∀ u, (s1.modify r fun i => { i with outRw := i.outRw.insert w }).info u = if u = r then
      { s1.info u with outRw := (s1.info u).outRw.insert w } else s1.info u := fun u => info_modify u
  have hout : ∀ u, ((s1.modify r fun i => { i with outRw := i.outRw.insert w }).info u).outRw =
      if u = r then (s.info u).outRw.insert w else (s.info u).outRw := by
    intro u
    rw [hinfo]
    by_cases hu : u = r
    · rw [if_pos hu, if_pos hu, hinfo1, if_neg (by rw [hu]; exact hne)]
    · rw [if_neg hu, if_neg hu, hinfo1]
      split <;> rfl
  have hin : ∀ u, ((s1.modify r fun i => { i with outRw := i.outRw.insert w }).info u).inRw =
      if u = w then (s.info u).inRw.insert r else (s.info u).inRw := by
    intro u
    have hsame : ((s1.modify r fun i => { i with outRw := i.outRw.insert w }).info u).inRw =
        (s1.info u).inRw := by
      rw [hinfo]
      split <;> rfl
    rw [hsame, hinfo1]
    split <;> rfl
  have hpart : ∀ {β : Type} (g : SerInfo → β), (∀ i l, g { i with outRw := l } = g i) →
      (∀ i l, g { i with inRw := l } = g i) → ∀ u,
      g ((s1.modify r fun i => { i with outRw := i.outRw.insert w }).info u) = g (s.info u) := by
    intro β g hgo hgi u
    have h1 : g (s1.info u) = g (s.info u) := by
      rw [hinfo1]
      split
      · exact hgi _ _
      · rfl
    rw [hinfo, ← h1]
    split
    · exact hgo _ _
    · rfl
  have hrids := hpart SerInfo.readRids (fun _ _ => rfl) fun _ _ => rfl
  have hpreds := hpart SerInfo.readPreds (fun _ _ => rfl) fun _ _ => rfl
  have hrr : (s1.modify r fun i => { i with outRw := i.outRw.insert w }).ridReaders = s.ridReaders := by
    rw [← hs1]
    rfl
  have hpr : (s1.modify r fun i => { i with outRw := i.outRw.insert w }).predReaders = s.predReaders := by
    rw [← hs1]
    rfl
  constructor
  · intro r' w'
    have hold := h.edges r' w'
    rw [hout, hin]
    by_cases hr : r' = r
    · by_cases hw : w' = w
      · rw [if_pos hr, if_pos hw, hr, hw]
        simp
      · rw [if_pos hr, if_neg hw, ← hold, List.mem_insert_iff]
        simp [hw]
    · by_cases hw : w' = w
      · rw [if_neg hr, if_pos hw, hold, List.mem_insert_iff]
        simp [hr]
      · rw [if_neg hr, if_neg hw]
        exact hold
  · intro u
    rw [hout]
    split
    · rename_i hu
      rw [List.mem_insert_iff, not_or]
      exact ⟨by rw [hu]; exact hne, h.irrefl u⟩
    · exact h.irrefl u
  · intro u
    rw [hout]
    split
    · exact (h.outNodup u).insert
    · exact h.outNodup u
  · intro u
    rw [hin]
    split
    · exact (h.inNodup u).insert
    · exact h.inNodup u
  · intro u row
    rw [hrr, hrids]
    exact h.rids u row
  · intro row
    rw [hrr]
    exact h.ridNodup row
  · intro u tab
    unfold compiledPreds
    rw [hpr, hpreds]
    exact h.preds u tab

theorem Graph.addEdges (ok : SerState → TxnId → Bool) (edge : TxnId → TxnId × TxnId) :
    ∀ (os : List TxnId) {s : SerState}, Graph metas s → Graph metas (s.addEdges ok edge os).1 := by
  intro os
  induction os with
  | nil => exact fun h => h
  | cons o os ih =>
      intro s h
      unfold SerState.addEdges
      split
      · exact ih (h.addEdge _ _)
      · exact ih h

/-! ## Removal -/

/-- Taking `t` out of the `out_rw` of the listed transactions. -/
theorem eraseOut_info (t : TxnId) : ∀ (l : List TxnId) (s : SerState),
    (∀ u, (s.info u).outRw.Nodup) → ∀ u,
      (l.foldl (fun s o => s.modifyIf o fun i => { i with outRw := i.outRw.erase t }) s).info u =
        if u ∈ l then { s.info u with outRw := (s.info u).outRw.erase t } else s.info u := by
  intro l
  induction l with
  | nil => intro s _ u; rfl
  | cons o l ih =>
      intro s hnd u
      have h1 : ∀ v, (s.modifyIf o fun i => { i with outRw := i.outRw.erase t }).info v =
          if v = o then { s.info v with outRw := (s.info v).outRw.erase t } else s.info v :=
        fun v => info_modifyIf rfl v
      rw [List.foldl_cons, ih _ _ u, h1]
      · by_cases ho : u = o
        · have hgone : ((s.info u).outRw.erase t).erase t = (s.info u).outRw.erase t :=
            List.erase_of_not_mem ((hnd u).not_mem_erase)
          simp [ho] at hgone ⊢
          simp [hgone]
        · simp [ho]
      · intro v
        rw [h1]
        split
        · exact (hnd v).erase t
        · exact hnd v

theorem eraseIn_info (t : TxnId) : ∀ (l : List TxnId) (s : SerState),
    (∀ u, (s.info u).inRw.Nodup) → ∀ u,
      (l.foldl (fun s o => s.modifyIf o fun i => { i with inRw := i.inRw.erase t }) s).info u =
        if u ∈ l then { s.info u with inRw := (s.info u).inRw.erase t } else s.info u := by
  intro l
  induction l with
  | nil => intro s _ u; rfl
  | cons o l ih =>
      intro s hnd u
      have h1 : ∀ v, (s.modifyIf o fun i => { i with inRw := i.inRw.erase t }).info v =
          if v = o then { s.info v with inRw := (s.info v).inRw.erase t } else s.info v :=
        fun v => info_modifyIf rfl v
      rw [List.foldl_cons, ih _ _ u, h1]
      · by_cases ho : u = o
        · have hgone : ((s.info u).inRw.erase t).erase t = (s.info u).inRw.erase t :=
            List.erase_of_not_mem ((hnd u).not_mem_erase)
          simp [ho] at hgone ⊢
          simp [hgone]
        · simp [ho]
      · intro v
        rw [h1]
        split
        · exact (hnd v).erase t
        · exact hnd v

/-- The reverse indexes are not touched by the loops over the edges. -/
theorem foldl_modifyIf_readers (g : SerInfo → SerInfo) : ∀ (l : List TxnId) (s : SerState),
    (l.foldl (fun s o => s.modifyIf o g) s).ridReaders = s.ridReaders ∧
      (l.foldl (fun s o => s.modifyIf o g) s).predReaders = s.predReaders := by
  intro l
  induction l with
  | nil => exact fun s => ⟨rfl, rfl⟩
  | cons o l ih =>
      intro s
      have h1 : (s.modifyIf o g).ridReaders = s.ridReaders ∧ (s.modifyIf o g).predReaders = s.predReaders := by
        unfold modifyIf
        split
        · exact ⟨rfl, rfl⟩
        · exact ⟨rfl, rfl⟩
      rw [List.foldl_cons, (ih _).1, (ih _).2]
      exact h1

/-- What `drop` leaves: no entry and no edge of `t`, and its reads out of the indexes. -/
structure Dropped (s s' : SerState) (t : TxnId) : Prop where
  self : s'.info t = {}
  reads : ∀ u, u ≠ t → (s'.info u).readRids = (s.info u).readRids
  preds : ∀ u, u ≠ t → (s'.info u).readPreds = (s.info u).readPreds
  out : ∀ u, u ≠ t → (s'.info u).outRw =
    if u ∈ (s.info t).inRw then (s.info u).outRw.erase t else (s.info u).outRw
  inn : ∀ u, u ≠ t → (s'.info u).inRw =
    if u ∈ (s.info t).outRw then (s.info u).inRw.erase t else (s.info u).inRw
  rids : ∀ row, s'.ridReaders row =
    if row ∈ (s.info t).readRids then (s.ridReaders row).erase t else s.ridReaders row
  predReaders : ∀ tab, s'.predReaders tab =
    if (s.info t).readPreds.any (fun p => p.1 = tab) then
      (s.predReaders tab).filter (fun e => decide (e.1 ≠ t)) else s.predReaders tab

theorem Graph.dropped (h : Graph metas s) {i : SerInfo} (hi : s.find t = some i) :
    Dropped s (s.drop t) t := by
  have hinfo := info_of_find hi
  unfold SerState.drop
  rw [hi]
  dsimp only
  generalize hs1 : i.inRw.foldl (fun s o => s.modifyIf o fun i => { i with outRw := i.outRw.erase t }) s = s1
  generalize hs2 : i.outRw.foldl (fun s o => s.modifyIf o fun i => { i with inRw := i.inRw.erase t }) s1 = s2
  have h1 := eraseOut_info t i.inRw s h.outNodup
  rw [hs1] at h1
  have hin1 : ∀ u, (s1.info u).inRw = (s.info u).inRw := by
    intro u
    rw [h1]
    split <;> rfl
  have h2 := eraseIn_info t i.outRw s1 fun u => by rw [hin1]; exact h.inNodup u
  rw [hs2] at h2
  have hr1 := foldl_modifyIf_readers (fun i => { i with outRw := i.outRw.erase t }) i.inRw s
  have hr2 := foldl_modifyIf_readers (fun i => { i with inRw := i.inRw.erase t }) i.outRw s1
  rw [hs1] at hr1
  rw [hs2] at hr2
  have hfinal : ∀ u, info { s2.unindex t i with infos := (s2.unindex t i).infos.filter fun e => e.1 ≠ t } u =
      if u = t then {} else s2.info u := by
    intro u
    unfold info find
    show ((s2.infos.filter fun e => decide (e.1 ≠ t)).lookup u).getD {} = _
    rw [lookup_filter_ne]
    split <;> rfl
  constructor
  · rw [hfinal, if_pos rfl]
  · intro u hu
    rw [hfinal, if_neg hu, h2, h1]
    split <;> split <;> rfl
  · intro u hu
    rw [hfinal, if_neg hu, h2, h1]
    split <;> split <;> rfl
  · intro u hu
    have hsame : (s2.info u).outRw = (s1.info u).outRw := by
      rw [h2]
      split <;> rfl
    rw [hfinal, if_neg hu, hsame, h1, hinfo]
    split <;> rfl
  · intro u hu
    rw [hfinal, if_neg hu, h2, hinfo, ← hin1 u]
    split <;> rfl
  · intro row
    show (if row ∈ i.readRids then (s2.ridReaders row).erase t else s2.ridReaders row) = _
    rw [hr2.1, hr1.1, hinfo]
  · intro tab
    show (if i.readPreds.any (fun p => p.1 = tab) then (s2.predReaders tab).filter fun e => decide (e.1 ≠ t)
      else s2.predReaders tab) = _
    rw [hr2.2, hr1.2, hinfo]

/-- In the graph that `drop` leaves the edges are the old ones that do not touch `t`. -/
theorem Dropped.mem_out (hd : Dropped s s' t) (h : Graph metas s) (r w : TxnId) :
    w ∈ (s'.info r).outRw ↔ r ≠ t ∧ w ≠ t ∧ w ∈ (s.info r).outRw := by
  by_cases hr : r = t
  · subst hr
    rw [hd.self]
    simp
  rw [hd.out r hr]
  by_cases hin : r ∈ (s.info t).inRw
  · rw [if_pos hin, (h.outNodup r).mem_erase_iff]
    simp [hr]
  · rw [if_neg hin]
    have hne : w ∈ (s.info r).outRw → w ≠ t := by
      rintro hw rfl
      exact hin ((h.edges r w).1 hw)
    exact ⟨fun hw => ⟨hr, hne hw, hw⟩, fun hw => hw.2.2⟩

theorem Dropped.mem_in (hd : Dropped s s' t) (h : Graph metas s) (r w : TxnId) :
    r ∈ (s'.info w).inRw ↔ r ≠ t ∧ w ≠ t ∧ r ∈ (s.info w).inRw := by
  by_cases hw : w = t
  · subst hw
    rw [hd.self]
    simp
  rw [hd.inn w hw]
  by_cases hout : w ∈ (s.info t).outRw
  · rw [if_pos hout, (h.inNodup w).mem_erase_iff]
    simp [hw]
  · rw [if_neg hout]
    have hne : r ∈ (s.info w).inRw → r ≠ t := by
      rintro hr rfl
      exact hout ((h.edges r w).2 hr)
    exact ⟨fun hr => ⟨hne hr, hw, hr⟩, fun hr => hr.2.2⟩

theorem Dropped.graph (hd : Dropped s s' t) (h : Graph metas s) : Graph metas s' where
  edges := by
    intro r w
    rw [hd.mem_out h, hd.mem_in h, h.edges]
  irrefl := by
    intro u hu
    exact h.irrefl u ((hd.mem_out h u u).1 hu).2.2
  outNodup := by
    intro u
    by_cases hu : u = t
    · rw [hu, hd.self]
      exact List.nodup_nil
    · rw [hd.out u hu]
      split
      · exact (h.outNodup u).erase t
      · exact h.outNodup u
  inNodup := by
    intro u
    by_cases hu : u = t
    · rw [hu, hd.self]
      exact List.nodup_nil
    · rw [hd.inn u hu]
      split
      · exact (h.inNodup u).erase t
      · exact h.inNodup u
  rids := by
    intro u row
    have hold := h.rids u row
    rw [hd.rids]
    by_cases hu : u = t
    · subst hu
      rw [hd.self]
      by_cases hrow : row ∈ (s.info u).readRids
      · rw [if_pos hrow]
        simp [(h.ridNodup row).not_mem_erase]
      · rw [if_neg hrow, hold]
        simp [hrow]
    · rw [hd.reads u hu, ← hold]
      split
      · exact List.mem_erase_of_ne hu
      · exact Iff.rfl
  ridNodup := by
    intro row
    rw [hd.rids]
    split
    · exact (h.ridNodup row).erase t
    · exact h.ridNodup row
  preds := by
    intro u tab
    have hold := h.preds u tab
    rw [hd.predReaders]
    by_cases hu : u = t
    · subst hu
      have hnil : s'.compiledPreds metas u tab = [] := by
        unfold compiledPreds
        rw [hd.self]
        rfl
      rw [hnil]
      split
      · rw [lookup_filter_ne, if_pos rfl]
        rfl
      · rename_i hnone
        rw [hold]
        unfold compiledPreds
        have hfilter : ((s.info u).readPreds.filter fun p => decide (p.1 = tab)) = [] := by
          rw [List.filter_eq_nil_iff]
          intro p hp hp'
          exact hnone (List.any_eq_true.2 ⟨p, hp, hp'⟩)
        rw [hfilter]
        rfl
    · have hsame : s'.compiledPreds metas u tab = s.compiledPreds metas u tab := by
        unfold compiledPreds
        rw [hd.preds u hu]
      rw [hsame, ← hold]
      split
      · rw [lookup_filter_ne, if_neg hu]
      · rfl

theorem Graph.drop (h : Graph metas s) (t : TxnId) : Graph metas (s.drop t) := by
  cases hi : s.find t with
  | none =>
      unfold SerState.drop
      rw [hi]
      exact h
  | some i => exact (h.dropped hi).graph h

theorem Graph.foldl_drop : ∀ (l : List (TxnId × SerInfo)) {s : SerState}, Graph metas s →
    Graph metas (l.foldl (fun s e => s.drop e.1) s) := by
  intro l
  induction l with
  | nil => exact fun h => h
  | cons e l ih => exact fun h => ih (h.drop e.1)

theorem Graph.finish (h : Graph metas s) (t : TxnId) (committed : Bool) (commitTs wm : Ts) :
    Graph metas (s.finish t committed commitTs wm) := by
  unfold SerState.finish
  split
  · exact h
  have hended : Graph metas (if committed then s.modify t fun i =>
      { i with committed := true, commitTs := commitTs } else s.drop t) := by
    split
    · exact h.modify (fun _ => rfl) (fun _ => rfl) (fun _ => rfl) fun _ => rfl
    · exact h.drop t
  generalize (if committed then s.modify t fun i =>
    { i with committed := true, commitTs := commitTs } else s.drop t) = s1 at hended
  dsimp only
  split
  · exact Graph.foldl_drop _ hended
  · exact hended

/-! ## Sequences of operations -/

/-- `ser_read_check` behind its gate; `ws` are the writers of the chain that the reader does not see. -/
def readCheck (s : SerState) (me : TxnId) (readTs : Ts) (ws : List TxnId) : SerState × Bool :=
  (s.modify me fun i => { i with readTs := readTs }).addEdges
    (fun s w => (s.find w).isSome && s.overlap me w) (fun w => (me, w)) ws

/-- The end of `ser_read_pred_check`, under `ser_latch_`. -/
def readPredCheck (s : SerState) (me : TxnId) (ws : List TxnId) : SerState × Bool :=
  s.addEdges (fun s w => (s.find w).isSome && s.overlap me w) (fun w => (me, w)) ws

/-- A call on the SSI state.  What the checks find in the version chains may be anything. -/
inductive Call where
  | recordRead (t : TxnId) (readTs : Ts) (r : RowId)
  | recordPred (t : TxnId) (readTs : Ts) (tab : TabName) (conds : List Condition)
  | writeCheck (t : TxnId) (readTs : Ts) (r : RowId) (data : Option Bytes)
  | readCheck (t : TxnId) (readTs : Ts) (ws : List TxnId)
  | readPredCheck (t : TxnId) (ws : List TxnId)
  | finish (t : TxnId) (committed : Bool) (commitTs wm : Ts)

def call (metas : TabName → TabMeta) (s : SerState) : Call → SerState
  | .recordRead t readTs r => s.recordRead t readTs r
  | .recordPred t readTs tab conds => s.recordPred (metas tab) t readTs tab conds
  | .writeCheck t readTs r data => (s.writeCheck t readTs r data).1
  | .readCheck t readTs ws => (s.readCheck t readTs ws).1
  | .readPredCheck t ws => (s.readPredCheck t ws).1
  | .finish t committed commitTs wm => s.finish t committed commitTs wm

/-- **One operation keeps the graph.** -/
theorem Graph.call (h : Graph metas s) (c : Call) : Graph metas (s.call metas c) := by
  cases c with
  | recordRead t readTs r => exact h.recordRead t readTs r
  | recordPred t readTs tab conds => exact h.recordPred t readTs tab conds
  | writeCheck t readTs r data =>
      have hset : Graph metas (s.modify t fun i => { i with readTs := readTs }) :=
        h.modify (fun _ => rfl) (fun _ => rfl) (fun _ => rfl) fun _ => rfl
      exact Graph.addEdges _ _ _ hset
  | readCheck t readTs ws =>
      have hset : Graph metas (s.modify t fun i => { i with readTs := readTs }) :=
        h.modify (fun _ => rfl) (fun _ => rfl) (fun _ => rfl) fun _ => rfl
      exact Graph.addEdges _ _ _ hset
  | readPredCheck t ws => exact Graph.addEdges _ _ _ h
  | finish t committed commitTs wm => exact h.finish t committed commitTs wm

theorem init_graph (metas : TabName → TabMeta) : Graph metas {} where
  edges := by
    intro r w
    exact ⟨fun h => (by cases h), fun h => (by cases h)⟩
  irrefl := fun t h => by cases h
  outNodup := fun _ => List.nodup_nil
  inNodup := fun _ => List.nodup_nil
  rids := fun t row => ⟨fun h => (by cases h), fun h => (by cases h)⟩
  ridNodup := fun _ => List.nodup_nil
  preds := fun _ _ => rfl

theorem calls_graph (metas : TabName → TabMeta) : ∀ (calls : List Call) {s : SerState},
    Graph metas s → Graph metas (calls.foldl (SerState.call metas) s) := by
  intro calls
  induction calls with
  | nil => exact fun h => h
  | cons c calls ih => exact fun h => ih (h.call c)

/-- **SSI graph consistency.**  After any sequence of operations the rw edges agree at their two
ends, and the reverse indexes list exactly the rows and the compiled predicates that the entries
hold. -/
theorem calls_consistent (metas : TabName → TabMeta) (calls : List Call) :
    Consistent metas (calls.foldl (SerState.call metas) {}) :=
  (calls_graph metas calls (init_graph metas)).consistent

end SerState

end Rmdb.Txn
