import Rmdb.Catalog.Kept

/-!
# Opening and closing a database

`open_db` finds a catalog whose files are all there, and gives the state it was closed or left in
(`reopen_ok`); where one file is missing it throws (`reopen_missing`).
-/

namespace Rmdb.Catalog

open Rmdb.Lib (Throws SortedMap)
open Rmdb.Lib.Throws
open Rmdb.Txn (Bytes ColType)

/-! ## The files of a catalog -/

def indexPath (tabName : Bytes) (index : IndexMeta) : Bytes := IxManager.indexName tabName (index.cols.map ColMeta.name)

def indexPaths (entry : Bytes × TabMeta) : List Bytes := entry.2.indexes.map (indexPath entry.1)

def entryPaths (entry : Bytes × TabMeta) : List Bytes := entry.1 :: indexPaths entry

def DbMeta.tables (db : DbMeta) : List Bytes := db.tabs.entries.map Prod.fst

def DbMeta.indexes (db : DbMeta) : List Bytes := db.tabs.entries.flatMap indexPaths

/-- A catalog with at most `n` tables of at most `n` indexes, and no two indexes with one path. -/
structure DbMeta.Kept (n : Nat) (db : DbMeta) : Prop where
  name : IsName db.name
  tabs : ∀ entry ∈ db.tabs.entries, entry.2.Kept n
  own : ∀ entry ∈ db.tabs.entries, entry.1 = entry.2.name
  size : db.tabs.entries.length ≤ n
  distinct : db.indexes.Nodup

def Disk.Holds (d : Disk) (ps : List Bytes) : Prop := ∀ p ∈ ps, p ∈ d.files ∧ p ∈ d.headed

structure SmManager.Consistent (n : Nat) (s : SmManager) : Prop where
  db : s.db.Kept n
  saved : s.disk.dbMeta = s.db.write
  files : s.disk.Holds (s.db.tables ++ s.db.indexes)
  opened : ∀ p ∈ s.db.tables ++ s.db.indexes, p ∈ s.opened
  fhs : s.fhs.Perm s.db.tables
  ihs : s.ihs.Perm s.db.indexes

theorem dot_mem_indexPath (tabName : Bytes) (index : IndexMeta) : 46 ∈ indexPath tabName index := by
  unfold indexPath IxManager.indexName
  exact List.mem_append_right _ List.mem_cons_self

namespace DbMeta

variable {n : Nat} {db : DbMeta}

theorem Kept.ok (h : db.Kept n) (hn : n < 2 ^ 64) : db.Ok :=
  ⟨h.name, fun entry hentry => (h.tabs entry hentry).ok hn, h.own, h.size.trans_lt hn⟩

theorem Kept.mono {m : Nat} (h : db.Kept n) (hnm : n ≤ m) : db.Kept m :=
  ⟨h.name, fun entry hentry => (h.tabs entry hentry).mono hnm, h.own, h.size.trans hnm, h.distinct⟩

theorem dot_mem_of_mem_indexes {p : Bytes} (h : p ∈ db.indexes) : 46 ∈ p := by
  obtain ⟨entry, -, hp⟩ := List.mem_flatMap.1 h
  obtain ⟨index, -, rfl⟩ := List.mem_map.1 hp
  exact dot_mem_indexPath _ _

theorem Kept.dot_not_mem (h : db.Kept n) {t : Bytes} (ht : t ∈ db.tables) : 46 ∉ t := by
  obtain ⟨entry, hentry, rfl⟩ := List.mem_map.1 ht
  rw [h.own entry hentry]
  exact (h.tabs entry hentry).dot

theorem tables_nodup (db : DbMeta) : db.tables.Nodup := by
  unfold tables List.Nodup
  rw [List.pairwise_map]
  exact db.tabs.sorted.imp fun h => h.ne

/-- No table has the path of an index: a name has no dot. -/
theorem Kept.nodup (h : db.Kept n) : (db.tables ++ db.indexes).Nodup := by
  refine List.nodup_append.2 ⟨db.tables_nodup, h.distinct, ?_⟩
  rintro t ht p hp rfl
  exact h.dot_not_mem ht (dot_mem_of_mem_indexes hp)

theorem tables_perm {t : Bytes} {tab : TabMeta} (h : db.tabs.find? t = some tab) :
    db.tables.Perm (t :: (db.tabs.erase t).entries.map Prod.fst) := (SortedMap.entries_perm h).map Prod.fst

theorem indexes_perm {t : Bytes} {tab : TabMeta} (h : db.tabs.find? t = some tab) :
    db.indexes.Perm (indexPaths (t, tab) ++ (db.tabs.erase t).entries.flatMap indexPaths) :=
  (SortedMap.entries_perm h).flatMap_right indexPaths

theorem tables_set_perm (db : DbMeta) (t : Bytes) (tab : TabMeta) :
    (DbMeta.mk db.name (db.tabs.set t tab)).tables.Perm (t :: (db.tabs.erase t).entries.map Prod.fst) :=
  (db.tabs.set_perm t tab).map Prod.fst

theorem indexes_set_perm (db : DbMeta) (t : Bytes) (tab : TabMeta) :
    (DbMeta.mk db.name (db.tabs.set t tab)).indexes.Perm (indexPaths (t, tab) ++ (db.tabs.erase t).entries.flatMap indexPaths) :=
  (db.tabs.set_perm t tab).flatMap_right indexPaths

/-- The catalog with an entry put or replaced. -/
theorem Kept.set {m : Nat} {t : Bytes} {tab : TabMeta} (h : db.Kept n) (hnm : n ≤ m) (htab : tab.Kept m) (hown : t = tab.name)
    (hsize : (db.tabs.erase t).entries.length + 1 ≤ m)
    (hdistinct : (indexPaths (t, tab) ++ (db.tabs.erase t).entries.flatMap indexPaths).Nodup) :
    (DbMeta.mk db.name (db.tabs.set t tab)).Kept m := by
  refine ⟨h.name, fun entry hentry => ?_, fun entry hentry => ?_, ?_, (db.indexes_set_perm t tab).nodup_iff.2 hdistinct⟩
  · rcases SortedMap.mem_set.1 hentry with rfl | hentry
    · exact htab
    · exact (h.tabs entry (SortedMap.mem_erase.1 hentry).1).mono hnm
  · rcases SortedMap.mem_set.1 hentry with rfl | hentry
    · exact hown
    · exact h.own entry (SortedMap.mem_erase.1 hentry).1
  · show (db.tabs.set t tab).entries.length ≤ m
    rw [(db.tabs.set_perm t tab).length_eq]
    exact hsize

/-- The catalog without an entry. -/
theorem Kept.erase (h : db.Kept n) (t : Bytes) : (DbMeta.mk db.name (db.tabs.erase t)).Kept n := by
  have hsub : (db.tabs.erase t).entries.Sublist db.tabs.entries := List.filter_sublist
  exact ⟨h.name, fun entry hentry => h.tabs entry (hsub.subset hentry), fun entry hentry => h.own entry (hsub.subset hentry),
    hsub.length_le.trans h.size, h.distinct.sublist (hsub.flatMap indexPaths)⟩

/-- The catalog with an index of a path that no index has. -/
theorem Kept.withIndex {t : Bytes} {tab : TabMeta} {index : IndexMeta} (h : db.Kept n) (hfind : db.tabs.find? t = some tab)
    (hindex : index.Ok) (hfound : ∀ name ∈ index.cols.map ColMeta.name, name ∈ tab.cols.map ColMeta.name)
    (hnew : indexPath t index ∉ db.indexes) :
    (DbMeta.mk db.name (db.tabs.set t (tab.withIndex index))).Kept (n + 1) ∧
      (DbMeta.mk db.name (db.tabs.set t (tab.withIndex index))).tables.Perm db.tables ∧
      (DbMeta.mk db.name (db.tabs.set t (tab.withIndex index))).indexes.Perm (indexPath t index :: db.indexes) := by
  have hentry := SortedMap.mem_of_find? hfind
  have hpaths : indexPaths (t, tab.withIndex index) = indexPaths (t, tab) ++ [indexPath t index] := by
    unfold indexPaths TabMeta.withIndex
    rw [List.map_append, List.map_singleton]
  have hset := db.indexes_set_perm t (tab.withIndex index)
  have hindexes := hset
  rw [hpaths, List.append_assoc] at hindexes
  replace hindexes := hindexes.trans (List.perm_middle.trans ((indexes_perm hfind).symm.cons _))
  have hdistinct := hindexes.nodup_iff.2 (List.nodup_cons.2 ⟨hnew, h.distinct⟩)
  refine ⟨?_, (db.tables_set_perm t _).trans (tables_perm hfind).symm, hindexes⟩
  refine h.set (Nat.le_succ n) ((h.tabs _ hentry).withIndex hindex hfound) (h.own _ hentry) ?_ (hset.nodup_iff.1 hdistinct)
  have hsize := (SortedMap.entries_perm hfind).length_eq
  rw [List.length_cons] at hsize
  have := h.size
  omega

/-- The catalog without one of the indexes of a table. -/
theorem Kept.withoutIndex {t : Bytes} {tab : TabMeta} {index : IndexMeta} {colNames : List Bytes} (h : db.Kept n)
    (hfind : db.tabs.find? t = some tab) (hindex : tab.indexes.find? (TabMeta.isIndexOn colNames) = some index) :
    (DbMeta.mk db.name (db.tabs.set t (tab.withoutIndex colNames))).Kept n ∧
      (DbMeta.mk db.name (db.tabs.set t (tab.withoutIndex colNames))).tables.Perm db.tables ∧
      db.indexes.Perm (indexPath t index :: (DbMeta.mk db.name (db.tabs.set t (tab.withoutIndex colNames))).indexes) := by
  have hentry := SortedMap.mem_of_find? hfind
  have hpaths : (indexPaths (t, tab)).Perm (indexPath t index :: indexPaths (t, tab.withoutIndex colNames)) :=
    (TabMeta.perm_eraseP hindex).map (indexPath t)
  have hset := db.indexes_set_perm t (tab.withoutIndex colNames)
  have hindexes := (indexes_perm hfind).trans ((hpaths.append_right _).trans (hset.symm.cons _))
  have hdistinct := (List.nodup_cons.1 (hindexes.nodup_iff.1 h.distinct)).2
  refine ⟨?_, (db.tables_set_perm t _).trans (tables_perm hfind).symm, hindexes⟩
  refine h.set le_rfl ((h.tabs _ hentry).withoutIndex colNames) (h.own _ hentry) ?_ (hset.nodup_iff.1 hdistinct)
  have hsize := (SortedMap.entries_perm hfind).length_eq
  rw [List.length_cons] at hsize
  have := h.size
  omega

end DbMeta

/-- A disk with all files of another, and the same db.meta. -/
structure Disk.Above (d d0 : Disk) : Prop where
  files : ∀ p ∈ d0.files, p ∈ d.files
  headed : ∀ p ∈ d0.headed, p ∈ d.headed
  dbMeta : d.dbMeta = d0.dbMeta

namespace Disk.Above

variable {d0 d1 d2 : Disk} {ps : List Bytes}

theorem refl (d : Disk) : d.Above d := ⟨fun _ h => h, fun _ h => h, rfl⟩

theorem trans (h : d2.Above d1) (h' : d1.Above d0) : d2.Above d0 :=
  ⟨fun p hp => h.files p (h'.files p hp), fun p hp => h.headed p (h'.headed p hp), h.dbMeta.trans h'.dbMeta⟩

theorem withHeader (d : Disk) (p : Bytes) : (d.withHeader p).Above d :=
  ⟨fun _ h => h, fun _ h => mem_emplace.2 (.inr h), rfl⟩

theorem withFile (d : Disk) (p : Bytes) : (d.withFile p).Above d := ⟨fun _ h => List.mem_cons_of_mem _ h, fun _ h => h, rfl⟩

theorem holds (h : d1.Above d0) (h0 : d0.Holds ps) : d1.Holds ps :=
  fun p hp => ⟨h.files p (h0 p hp).1, h.headed p (h0 p hp).2⟩

end Disk.Above

/-! ## Opening -/

namespace SmManager

variable {n : Nat} {s : SmManager} {d : Disk} {db : DbMeta}

/-- The state with more files open. -/
def opening (s : SmManager) (tables indexes paths : List Bytes) : SmManager :=
  { s with opened := emplaceAll paths s.opened, fhs := emplaceAll tables s.fhs, ihs := emplaceAll indexes s.ihs }

theorem opening_opening (s : SmManager) (t1 t2 i1 i2 p1 p2 : List Bytes) :
    (s.opening t1 i1 p1).opening t2 i2 p2 = s.opening (t1 ++ t2) (i1 ++ i2) (p1 ++ p2) := by
  unfold opening emplaceAll
  rw [List.foldl_append, List.foldl_append, List.foldl_append]

theorem openIndex_ok {tabName : Bytes} {index : IndexMeta} (h : s.disk.Holds [indexPath tabName index]) :
    openIndex tabName index s = (.ok (), s.opening [] [indexPath tabName index] [indexPath tabName index]) := by
  obtain ⟨h1, h2⟩ := h _ List.mem_cons_self
  unfold openIndex
  rw [IxManager.openIndex_eq]
  exact bind_ok (RmManager.openFile_ok h1 h2)

theorem each_openIndex (tabName : Bytes) : ∀ (indexes : List IndexMeta) (s : SmManager),
    s.disk.Holds (indexes.map (indexPath tabName)) → each (openIndex tabName) indexes s =
      (.ok (), s.opening [] (indexes.map (indexPath tabName)) (indexes.map (indexPath tabName))) := by
  intro indexes
  induction indexes with
  | nil => exact fun _ _ => rfl
  | cons index indexes ih =>
      intro s h
      obtain ⟨hfirst, hrest⟩ := List.forall_mem_cons.1 h
      rw [each_cons_ok (openIndex_ok (List.forall_mem_singleton.2 hfirst)), ih (s.opening [] [indexPath tabName index] [indexPath tabName index]) hrest,
        opening_opening]
      rfl

theorem openTable_ok {entry : Bytes × TabMeta} (h : s.disk.Holds (entryPaths entry)) :
    openTable entry s = (.ok (), s.opening [entry.1] (indexPaths entry) (entryPaths entry)) := by
  obtain ⟨⟨h1, h2⟩, hrest⟩ := List.forall_mem_cons.1 h
  have hindexes := each_openIndex entry.1 entry.2.indexes (s.opening [entry.1] [] [entry.1]) hrest
  rw [opening_opening] at hindexes
  unfold openTable
  rw [bind_ok (RmManager.openFile_ok h1 h2), modify_bind]
  exact hindexes

theorem each_openTable : ∀ (entries : List (Bytes × TabMeta)) (s : SmManager), s.disk.Holds (entries.flatMap entryPaths) →
    each openTable entries s =
      (.ok (), s.opening (entries.map Prod.fst) (entries.flatMap indexPaths) (entries.flatMap entryPaths)) := by
  intro entries
  induction entries with
  | nil => exact fun _ _ => rfl
  | cons entry entries ih =>
      intro s h
      obtain ⟨hfirst, hrest⟩ := List.forall_mem_append.1 h
      rw [each_cons_ok (openTable_ok hfirst), ih (s.opening [entry.1] (indexPaths entry) (entryPaths entry)) hrest, opening_opening]
      rfl

theorem mem_entryPaths {p : Bytes} : p ∈ db.tabs.entries.flatMap entryPaths ↔ p ∈ db.tables ++ db.indexes := by
  unfold DbMeta.tables DbMeta.indexes entryPaths
  simp only [List.mem_flatMap, List.mem_cons, List.mem_append, List.mem_map]
  constructor
  · rintro ⟨entry, hentry, rfl | hp⟩
    · exact .inl ⟨entry, hentry, rfl⟩
    · exact .inr ⟨entry, hentry, hp⟩
  · rintro (⟨entry, hentry, rfl⟩ | ⟨entry, hentry, hp⟩)
    · exact ⟨entry, hentry, .inl rfl⟩
    · exact ⟨entry, hentry, .inr hp⟩

/-- `open_db` finds the catalog in db.meta. -/
theorem reopen_eq {rest : Bytes} (hread : DbMeta.read .empty d.dbMeta = some (db, rest)) :
    reopen d = each openTable db.tabs.entries ⟨d, [d], [], [], [], db⟩ := by
  unfold reopen openDb
  rw [get_bind]
  dsimp only
  rw [hread]
  rfl

theorem read_saved (h : db.Kept n) (hn : n < 2 ^ 64) : ∃ rest, DbMeta.read .empty db.write = some (db, rest) := by
  obtain ⟨ws, -, hread⟩ := (h.ok hn).reads [] [] spaces_nil
  rw [List.append_nil, List.append_nil] at hread
  exact ⟨_, hread⟩

/-- A catalog whose files are all there is opened. -/
theorem reopen_ok (h : db.Kept n) (hn : n < 2 ^ 64) (hsaved : d.dbMeta = db.write) (hfiles : d.Holds (db.tables ++ db.indexes)) :
    ∃ s, reopen d = (.ok (), s) ∧ s.db = db ∧ s.disk = d ∧ s.Consistent n := by
  obtain ⟨rest, hread⟩ := read_saved h hn
  rw [← hsaved] at hread
  have hholds : d.Holds (db.tabs.entries.flatMap entryPaths) := fun p hp => hfiles p (mem_entryPaths.1 hp)
  refine ⟨_, (reopen_eq hread).trans (each_openTable db.tabs.entries _ hholds), rfl, rfl, h, hsaved, hfiles, ?_, ?_, ?_⟩
  · exact fun p hp => mem_emplaceAll.2 (.inl (mem_entryPaths.2 hp))
  · have hperm := emplaceAll_perm (List.append_nil db.tables ▸ db.tables_nodup)
    rw [List.append_nil] at hperm
    exact hperm
  · have hperm := emplaceAll_perm (List.append_nil db.indexes ▸ h.distinct)
    rw [List.append_nil] at hperm
    exact hperm

/-! ## A missing file -/

theorem openFile_outcome {p q : Bytes} (hp : p ∉ s.disk.files) (hq : q ≠ p → q ∈ s.disk.files ∧ q ∈ s.disk.headed) :
    Outcome (RmManager.openFile q) s (fun _ s' => s'.disk = s.disk ∧ q ≠ p) fun e _ => e = .fileNotFound p := by
  by_cases h : q = p
  · subst h
    exact .of_error (RmManager.openFile_error hp) rfl
  · obtain ⟨h1, h2⟩ := hq h
    exact .of_ok (RmManager.openFile_ok h1 h2) ⟨rfl, h⟩

theorem each_openIndex_missing {p : Bytes} (tabName : Bytes) (indexes : List IndexMeta) (hp : p ∉ s.disk.files)
    (hothers : ∀ q ∈ indexes.map (indexPath tabName), q ≠ p → q ∈ s.disk.files ∧ q ∈ s.disk.headed) :
    Outcome (each (openIndex tabName) indexes) s
      (fun _ s' => s'.disk = s.disk ∧ p ∉ indexes.map (indexPath tabName)) fun e _ => e = .fileNotFound p := by
  -- `done` and what is left are all indexes
  have hall := outcome_each (f := openIndex tabName) (E := fun e _ => e = SmError.fileNotFound p)
    (I := fun left s' => s'.disk = s.disk ∧ ∃ done, indexes = done ++ left ∧ p ∉ done.map (indexPath tabName))
    (fun index left s1 h => by
      obtain ⟨hdisk, done, hsplit, hdone⟩ := h
      have hopen := openFile_outcome (s := s1) (p := p) (q := indexPath tabName index) (by rw [hdisk]; exact hp) (fun hq => by
        rw [hdisk]
        refine hothers _ ?_ hq
        rw [hsplit, List.map_append]
        exact List.mem_append_right _ List.mem_cons_self)
      refine hopen.bind fun _ s2 h2 => .of_ok rfl ⟨h2.1.trans hdisk, done ++ [index], ?_, ?_⟩
      · rw [hsplit, List.append_assoc]
        rfl
      · rw [List.map_append, List.mem_append]
        rintro (hp' | hp')
        · exact hdone hp'
        · exact h2.2 (List.mem_singleton.1 hp').symm) indexes s ⟨rfl, [], rfl, List.not_mem_nil⟩
  refine hall.imp (fun _ s' h => ?_) fun _ _ h => h
  obtain ⟨hdisk, done, hsplit, hdone⟩ := h
  rw [hsplit, List.append_nil]
  exact ⟨hdisk, hdone⟩

theorem openTable_missing {p : Bytes} {entry : Bytes × TabMeta} (hp : p ∉ s.disk.files)
    (hothers : ∀ q ∈ entryPaths entry, q ≠ p → q ∈ s.disk.files ∧ q ∈ s.disk.headed) :
    Outcome (openTable entry) s (fun _ s' => s'.disk = s.disk ∧ p ∉ entryPaths entry) fun e _ => e = .fileNotFound p := by
  refine (openFile_outcome hp (hothers entry.1 List.mem_cons_self)).bind fun _ s1 h1 => ?_
  refine Outcome.bind (Q := fun _ s2 => s2.disk = s.disk) (.of_ok rfl h1.1) fun _ s2 h2 => ?_
  have hindexes := each_openIndex_missing (s := s2) (p := p) entry.1 entry.2.indexes (by rw [h2]; exact hp)
    (by rw [h2]; exact fun q hq => hothers q (List.mem_cons_of_mem _ hq))
  refine hindexes.imp (fun _ s3 h3 => ⟨h3.1.trans h2, ?_⟩) fun _ _ h => h
  intro hmem
  rcases List.mem_cons.1 hmem with rfl | hmem
  · exact h1.2 rfl
  · exact h3.2 hmem

/-- Where one file of the catalog in db.meta is missing the database does not open. -/
theorem reopen_missing (h : db.Kept n) (hn : n < 2 ^ 64) (hsaved : d.dbMeta = db.write) {p : Bytes} (hp : p ∉ d.files)
    (hmem : p ∈ db.tables ++ db.indexes) (hothers : ∀ q ∈ db.tables ++ db.indexes, q ≠ p → q ∈ d.files ∧ q ∈ d.headed) :
    (reopen d).1 = .error (.fileNotFound p) := by
  obtain ⟨rest, hread⟩ := read_saved h hn
  rw [← hsaved] at hread
  have hall := outcome_each (f := openTable) (E := fun e _ => e = SmError.fileNotFound p)
    (I := fun left s' => s'.disk = d ∧ ∃ done, db.tabs.entries = done ++ left ∧ p ∉ done.flatMap entryPaths)
    (fun entry left s1 h => by
      obtain ⟨hdisk, done, hsplit, hdone⟩ := h
      have hopen : Outcome (openTable entry) s1 _ _ := openTable_missing (s := s1) (p := p) (by rw [hdisk]; exact hp) (fun q hq hne => by
        rw [hdisk]
        refine hothers q (mem_entryPaths.1 ?_) hne
        rw [hsplit]
        exact List.mem_flatMap.2 ⟨entry, List.mem_append_right _ List.mem_cons_self, hq⟩)
      refine hopen.imp (fun _ s2 h2 => ⟨h2.1.trans hdisk, done ++ [entry], ?_, ?_⟩) fun _ _ h => h
      · rw [hsplit, List.append_assoc]
        rfl
      · rw [List.flatMap_append, List.flatMap_singleton, List.mem_append]
        rintro (hp' | hp')
        · exact hdone hp'
        · exact h2.2 hp') db.tabs.entries ⟨d, [d], [], [], [], db⟩ ⟨rfl, [], rfl, List.not_mem_nil⟩
  rw [reopen_eq hread]
  rcases hall with ⟨_, s', -, -, done, hsplit, hdone⟩ | ⟨e, s', herr, rfl⟩
  · rw [List.append_nil] at hsplit
    rw [← hsplit] at hdone
    exact absurd (mem_entryPaths.2 hmem) hdone
  · rw [herr]

/-! ## Closing -/

theorem each_closeFile (ps : List Bytes) : ∀ s : SmManager, ps.Nodup → (∀ p ∈ ps, p ∈ s.opened) →
    Outcome (each RmManager.closeFile ps) s (fun _ s' => s'.db = s.db ∧ s'.ihs = s.ihs ∧ s'.disk.Above s.disk ∧
      ∀ p ∈ s.opened, p ∉ ps → p ∈ s'.opened) fun _ _ => False := by
  induction ps with
  | nil => exact fun s _ _ => .of_ok rfl ⟨rfl, rfl, .refl _, fun p hp _ => hp⟩
  | cons p ps ih =>
      intro s hnodup hopened
      obtain ⟨hp, hnodup⟩ := List.nodup_cons.1 hnodup
      refine (Outcome.of_ok (RmManager.closeFile_ok (hopened p List.mem_cons_self)) rfl).bind (Q := fun _ s' => _ = s') fun _ s1 h1 => ?_
      subst h1
      have hrest := ih { s with disk := s.disk.withHeader p, passed := s.passed ++ [s.disk.withHeader p], opened := erased p s.opened }
        hnodup fun q hq => mem_erased.2 ⟨hopened q (List.mem_cons_of_mem _ hq), fun h => hp (h ▸ hq)⟩
      refine hrest.imp (fun _ s' h' => ?_) fun _ _ h => h
      obtain ⟨hdb, hihs, habove, hopen⟩ := h'
      refine ⟨hdb, hihs, habove.trans (.withHeader _ _), fun q hq hnot => ?_⟩
      obtain ⟨hqp, hqs⟩ := not_or.1 (fun h => hnot (List.mem_cons.2 h))
      exact hopen q (mem_erased.2 ⟨hq, hqp⟩) hqs

/-- `close_db` leaves a directory that opens to the same catalog. -/
theorem closeDb_outcome (h : s.Consistent n) :
    Outcome closeDb s (fun _ s' => s'.disk.Above s.disk) fun _ _ => False := by
  have hnodup := h.db.nodup
  have hfhs : s.fhs.Nodup := h.fhs.nodup_iff.2 s.db.tables_nodup
  have hihs : s.ihs.Nodup := h.ihs.nodup_iff.2 h.db.distinct
  have hsaved : { s.disk with dbMeta := s.db.write } = s.disk := by rw [← h.saved]
  obtain ⟨s0, hs0⟩ : ∃ s0 : SmManager, s0 = { s with
      disk := { s.disk with dbMeta := s.db.write }
      passed := s.passed ++ s.disk.writing s.db.write } := ⟨_, rfl⟩
  have hdisk : s0.disk = s.disk := by rw [hs0]; exact hsaved
  have hflush : flushMeta s = (.ok (), s0) := by rw [hs0]; exact flushMeta_ok s
  have htables : ∀ p ∈ s0.fhs, p ∈ s0.opened := by
    rw [hs0]
    exact fun p hp => h.opened p (List.mem_append_left _ (h.fhs.mem_iff.1 hp))
  have hindexes : ∀ p ∈ s0.ihs, p ∈ s0.opened ∧ p ∉ s0.fhs := by
    rw [hs0]
    intro p hp
    refine ⟨h.opened p (List.mem_append_right _ (h.ihs.mem_iff.1 hp)), fun hp' => ?_⟩
    exact (List.nodup_append.1 hnodup).2.2 p (h.fhs.mem_iff.1 hp') p (h.ihs.mem_iff.1 hp) rfl
  have hnodup1 : s0.fhs.Nodup := by rw [hs0]; exact hfhs
  have hnodup2 : s0.ihs.Nodup := by rw [hs0]; exact hihs
  unfold closeDb
  refine (Outcome.of_ok hflush rfl).bind (Q := fun _ s' => s0 = s') fun _ s1 h1 => ?_
  subst h1
  refine Outcome.bind (Q := fun a s' => a = s0 ∧ s' = s0) (.of_ok rfl ⟨rfl, rfl⟩) fun a s1 h1 => ?_
  obtain ⟨ha, hs1⟩ := h1
  rw [ha, hs1]
  refine (each_closeFile s0.fhs s0 hnodup1 htables).bind fun _ s1 h1 => ?_
  obtain ⟨hdb, hihs1, habove, hopen⟩ := h1
  refine Outcome.bind (Q := fun _ s' => s' = { s1 with fhs := [] }) (.of_ok rfl rfl) fun _ s2 h2 => ?_
  subst h2
  have hopened : ∀ p ∈ s0.ihs, p ∈ s1.opened := fun p hp => hopen p (hindexes p hp).1 (hindexes p hp).2
  refine (each_closeFile s0.ihs { s1 with fhs := [] } hnodup2 hopened).bind fun _ s3 h3 => .of_ok rfl ?_
  have h := h3.2.2.1.trans habove
  rw [hdisk] at h
  exact h

end SmManager

end Rmdb.Catalog
