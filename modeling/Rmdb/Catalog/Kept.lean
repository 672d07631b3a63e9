import Rmdb.Catalog.Ddl

/-!
# The catalog and its files

Between two statements the catalog in memory is the one in db.meta, each of its tables and indexes has a file
that is open, and no two indexes share one (`SmManager.Consistent`).
-/

namespace Rmdb.Catalog

open Rmdb.Lib (Throws SortedMap)
open Rmdb.Lib.Throws
open Rmdb.Txn (Bytes ColType)

/-! ## Lists of names -/

@[simp] theorem mem_emplace {p q : Bytes} {ps : List Bytes} : q ∈ emplace p ps ↔ q = p ∨ q ∈ ps := by
  unfold emplace
  by_cases h : ps.contains p = true
  · rw [if_pos h]
    constructor
    · exact .inr
    · rintro (rfl | h')
      · exact List.contains_iff_mem.1 h
      · exact h'
  · rw [if_neg h, List.mem_cons]

@[simp] theorem mem_erased {p q : Bytes} {ps : List Bytes} : q ∈ erased p ps ↔ q ∈ ps ∧ q ≠ p := by
  unfold erased
  rw [List.mem_filter, bne_iff_ne]

theorem emplace_perm {p : Bytes} {ps : List Bytes} (h : p ∉ ps) : (emplace p ps).Perm (p :: ps) := by
  unfold emplace
  rw [if_neg fun hc => h (List.contains_iff_mem.1 hc)]

theorem erased_perm {p : Bytes} {ps qs : List Bytes} (h : ps.Perm (p :: qs)) (hnodup : ps.Nodup) : (erased p ps).Perm qs := by
  have hp : p ∉ qs := (List.nodup_cons.1 (h.nodup_iff.1 hnodup)).1
  have hfilter : (erased p ps).Perm (erased p (p :: qs)) := h.filter _
  have hqs : erased p (p :: qs) = qs := by
    unfold erased
    rw [List.filter_cons_of_neg (by simp), List.filter_eq_self]
    intro q hq
    rw [bne_iff_ne]
    rintro rfl
    exact hp hq
  rw [hqs] at hfilter
  exact hfilter

def emplaceAll (ps qs : List Bytes) : List Bytes := ps.foldl (fun qs p => emplace p qs) qs

@[simp] theorem mem_emplaceAll {p : Bytes} : ∀ {ps qs : List Bytes}, p ∈ emplaceAll ps qs ↔ p ∈ ps ∨ p ∈ qs := by
  intro ps
  induction ps with
  | nil => simp [emplaceAll]
  | cons q ps ih =>
      intro qs
      have hcons : emplaceAll (q :: ps) qs = emplaceAll ps (emplace q qs) := rfl
      rw [hcons, ih, mem_emplace, List.mem_cons]
      tauto

theorem emplaceAll_perm : ∀ {ps qs : List Bytes}, (ps ++ qs).Nodup → (emplaceAll ps qs).Perm (ps ++ qs) := by
  intro ps
  induction ps with
  | nil => exact fun _ => .refl _
  | cons p ps ih =>
      intro qs h
      have hcons : emplaceAll (p :: ps) qs = emplaceAll ps (emplace p qs) := rfl
      rw [List.cons_append, List.nodup_cons] at h
      have hp : p ∉ qs := fun hp => h.1 (List.mem_append_right _ hp)
      have hperm : (ps ++ emplace p qs).Perm (p :: (ps ++ qs)) :=
        ((emplace_perm hp).append_left ps).trans List.perm_middle
      rw [hcons]
      exact (ih (hperm.nodup_iff.2 (List.nodup_cons.2 h))).trans hperm

/-! ## Calls on files -/

namespace DiskManager

variable {s : SmManager} {path : Bytes}

theorem onDisk_apply (f : Disk → Disk) (s : SmManager) :
    onDisk f s = (.ok (), { s with disk := f s.disk, passed := s.passed ++ [f s.disk] }) := rfl

theorem createFile_ok (h : path ∉ s.disk.files) : DiskManager.createFile path s =
    onDisk (fun d => { d with files := path :: d.files }) s := by
  unfold DiskManager.createFile
  rw [get_bind, if_neg fun hc => h (List.contains_iff_mem.1 hc)]

theorem createFile_error (h : path ∈ s.disk.files) : DiskManager.createFile path s = (.error (.fileExists path), s) := by
  unfold DiskManager.createFile
  rw [get_bind, if_pos (List.contains_iff_mem.2 h)]
  rfl

theorem destroyFile_ok (h1 : path ∉ s.opened) (h2 : path ∈ s.disk.files) : destroyFile path s =
    onDisk (fun d => { d with files := erased path d.files, headed := erased path d.headed }) s := by
  unfold destroyFile
  rw [get_bind, if_neg fun hc => h1 (List.contains_iff_mem.1 hc), List.contains_iff_mem.2 h2]
  rfl

theorem openFile_ok (h : path ∈ s.disk.files) : openFile path s = (.ok (), { s with opened := emplace path s.opened }) := by
  unfold openFile
  rw [get_bind, List.contains_iff_mem.2 h]
  rfl

theorem openFile_error (h : path ∉ s.disk.files) : openFile path s = (.error (.fileNotFound path), s) := by
  unfold openFile
  rw [get_bind, if_pos]
  · rfl
  · rw [Bool.not_eq_true', ← Bool.not_eq_true]
    exact fun hc => h (List.contains_iff_mem.1 hc)

theorem closeFile_ok (h : path ∈ s.opened) : closeFile path s = (.ok (), { s with opened := erased path s.opened }) := by
  unfold closeFile
  rw [get_bind, List.contains_iff_mem.2 h]
  rfl

theorem readHeader_ok (h : path ∈ s.disk.headed) : readHeader path s = (.ok (), s) := by
  unfold readHeader
  rw [get_bind, List.contains_iff_mem.2 h]
  rfl

end DiskManager

section

open DiskManager

variable {s : SmManager} {path : Bytes}

theorem RmManager.openFile_ok (h1 : path ∈ s.disk.files) (h2 : path ∈ s.disk.headed) :
    RmManager.openFile path s = (.ok (), { s with opened := emplace path s.opened }) := by
  unfold RmManager.openFile
  rw [bind_ok (DiskManager.openFile_ok h1)]
  exact readHeader_ok (s := { s with opened := emplace path s.opened }) h2

theorem RmManager.openFile_error (h : path ∉ s.disk.files) : RmManager.openFile path s = (.error (.fileNotFound path), s) := by
  unfold RmManager.openFile
  exact bind_error (DiskManager.openFile_error h)

theorem IxManager.openIndex_eq (path : Bytes) : IxManager.openIndex path = RmManager.openFile path := rfl

theorem IxManager.closeIndex_eq (path : Bytes) : IxManager.closeIndex path = RmManager.closeFile path := rfl

def Disk.withHeader (d : Disk) (path : Bytes) : Disk := { d with headed := emplace path d.headed }

theorem RmManager.closeFile_ok (h : path ∈ s.opened) : RmManager.closeFile path s = (.ok (),
    { s with disk := s.disk.withHeader path, passed := s.passed ++ [s.disk.withHeader path], opened := erased path s.opened }) := by
  unfold RmManager.closeFile
  rw [writeHeader, bind_ok (onDisk_apply _ s)]
  exact DiskManager.closeFile_ok (s := { s with disk := s.disk.withHeader path, passed := s.passed ++ [s.disk.withHeader path] }) h

def Disk.withFile (d : Disk) (path : Bytes) : Disk := { d with files := path :: d.files }

theorem RmManager.createFile_refused {size : Int} (hsize : size < 1 ∨ size > maxRecordSize) :
    RmManager.createFile path size s = (.error (.invalidRecordSize size), s) := by
  unfold RmManager.createFile
  rw [if_pos hsize]
  rfl

theorem RmManager.createFile_exists {size : Int} (hsize : ¬(size < 1 ∨ size > maxRecordSize)) (h : path ∈ s.disk.files) :
    RmManager.createFile path size s = (.error (.fileExists path), s) := by
  unfold RmManager.createFile
  rw [if_neg hsize]
  exact bind_error (DiskManager.createFile_error h)

theorem RmManager.createFile_ok {size : Int} (hsize : ¬(size < 1 ∨ size > maxRecordSize)) (h : path ∉ s.disk.files) :
    RmManager.createFile path size s = (.ok (), { s with
      disk := (s.disk.withFile path).withHeader path
      passed := s.passed ++ [s.disk.withFile path, (s.disk.withFile path).withHeader path]
      opened := erased path (emplace path s.opened) }) := by
  unfold RmManager.createFile
  rw [if_neg hsize, bind_ok ((DiskManager.createFile_ok h).trans (onDisk_apply _ s)),
    bind_ok (DiskManager.openFile_ok (by exact List.mem_cons_self)), writeHeader, bind_ok (onDisk_apply _ _),
    DiskManager.closeFile_ok (by exact mem_emplace.2 (.inl rfl)), List.append_assoc]
  rfl

theorem SmManager.flushMeta_ok (s : SmManager) : SmManager.flushMeta s = (.ok (), { s with
    disk := { s.disk with dbMeta := s.db.write }
    passed := s.passed ++ s.disk.writing s.db.write }) := rfl

end

/-! ## Marks of indexed columns -/

namespace TabMeta

def markAll (names : List Bytes) (cols : List ColMeta) : List ColMeta := names.foldl (fun cols name => markCol name cols) cols

def unmarked (cols : List ColMeta) : List ColMeta := cols.map fun c => { c with index := false }

/-- The columns of all indexes. -/
def indexed (tab : TabMeta) : List Bytes := tab.indexes.flatMap fun index => index.cols.map ColMeta.name

/-- Everything of a column but its mark. -/
def bare (cols : List ColMeta) : List (Bytes × Bytes × ColType × BitVec 32 × BitVec 32) :=
  cols.map fun c => (c.tabName, c.name, c.type, c.len, c.offset)

theorem bare_markCol (name : Bytes) : ∀ cols : List ColMeta, bare (markCol name cols) = bare cols := by
  intro cols
  induction cols with
  | nil => rfl
  | cons c cols ih =>
      unfold markCol
      split
      · rfl
      · unfold bare at ih ⊢
        rw [List.map_cons, List.map_cons, ih]

theorem bare_markAll : ∀ (names : List Bytes) (cols : List ColMeta), bare (markAll names cols) = bare cols := by
  intro names
  induction names with
  | nil => exact fun _ => rfl
  | cons name names ih => exact fun cols => (ih (markCol name cols)).trans (bare_markCol name cols)

theorem bare_unmarked (cols : List ColMeta) : bare (unmarked cols) = bare cols := by
  unfold bare unmarked
  rw [List.map_map]
  rfl

theorem unmarked_eq_of_bare {cols cols' : List ColMeta} (h : bare cols = bare cols') : unmarked cols = unmarked cols' := by
  have hof : ∀ cols : List ColMeta, unmarked cols = (bare cols).map fun b => ⟨b.1, b.2.1, b.2.2.1, b.2.2.2.1, b.2.2.2.2, false⟩ := by
    intro cols
    unfold unmarked bare
    rw [List.map_map]
    rfl
  rw [hof, hof, h]

theorem names_eq_of_bare {cols cols' : List ColMeta} (h : bare cols = bare cols') : cols.map ColMeta.name = cols'.map ColMeta.name := by
  have hof : ∀ cols : List ColMeta, cols.map ColMeta.name = (bare cols).map fun b => b.2.1 := by
    intro cols
    unfold bare
    rw [List.map_map]
    rfl
  rw [hof, hof, h]

theorem ok_of_bare {cols cols' : List ColMeta} (h : bare cols = bare cols') (hok : ∀ c ∈ cols', c.Ok) : ∀ c ∈ cols, c.Ok := by
  intro c hc
  have hmem : (c.tabName, c.name, c.type, c.len, c.offset) ∈ bare cols' := by
    rw [← h]
    exact List.mem_map_of_mem hc
  obtain ⟨c', hc', heq⟩ := List.mem_map.1 hmem
  obtain ⟨htab, hname⟩ := hok c' hc'
  simp only [Prod.mk.injEq] at heq
  exact ⟨heq.1 ▸ htab, heq.2.1 ▸ hname⟩

theorem length_eq_of_bare {cols cols' : List ColMeta} (h : bare cols = bare cols') : cols.length = cols'.length := by
  have hlen := congrArg List.length h
  unfold bare at hlen
  rw [List.length_map, List.length_map] at hlen
  exact hlen

theorem setIndexed_ok {name : Bytes} {tab : TabMeta} (h : name ∈ tab.cols.map ColMeta.name) :
    setIndexed name tab = (.ok (), { tab with cols := markCol name tab.cols }) := by
  unfold setIndexed
  rw [get_bind]
  cases hcol : tab.getCol name with
  | none =>
      obtain ⟨c, hc, hname⟩ := List.mem_map.1 h
      have := List.find?_eq_none.1 hcol c hc
      rw [hname] at this
      exact absurd (beq_self_eq_true name) this
  | some c => rfl

theorem each_setIndexed : ∀ (names : List Bytes) (tab : TabMeta), (∀ name ∈ names, name ∈ tab.cols.map ColMeta.name) →
    each setIndexed names tab = (.ok (), { tab with cols := markAll names tab.cols }) := by
  intro names
  induction names with
  | nil => exact fun _ _ => rfl
  | cons name names ih =>
      intro tab h
      have hnames := names_eq_of_bare (bare_markCol name tab.cols)
      unfold each
      rw [bind_ok (setIndexed_ok (h name List.mem_cons_self)), ih _ fun name' hname' => ?_]
      · rfl
      · rw [hnames]
        exact h name' (List.mem_cons_of_mem _ hname')

end TabMeta

/-! ## Tables -/

/-- A table with at most `n` indexes, whose marks are those that `drop_index` would set anew.  Its name has no dot. -/
structure TabMeta.Kept (n : Nat) (tab : TabMeta) : Prop where
  name : IsName tab.name
  dot : 46 ∉ tab.name
  cols : ∀ col ∈ tab.cols, col.Ok
  colsSize : tab.cols.length < 2 ^ 64
  indexes : ∀ index ∈ tab.indexes, index.Ok
  count : tab.indexes.length ≤ n
  found : ∀ name ∈ tab.indexed, name ∈ tab.cols.map ColMeta.name
  marks : markAll tab.indexed (unmarked tab.cols) = tab.cols

namespace TabMeta

variable {n : Nat} {tab : TabMeta}

theorem Kept.mono {m : Nat} (h : tab.Kept n) (hnm : n ≤ m) : tab.Kept m := { h with count := h.count.trans hnm }

theorem Kept.ok (h : tab.Kept n) (hn : n < 2 ^ 64) : tab.Ok :=
  ⟨h.name, h.cols, h.indexes, h.colsSize, h.count.trans_lt hn⟩

def withIndex (tab : TabMeta) (index : IndexMeta) : TabMeta :=
  ⟨tab.name, markAll (index.cols.map ColMeta.name) tab.cols, tab.indexes ++ [index]⟩

def withoutIndex (tab : TabMeta) (colNames : List Bytes) : TabMeta :=
  ⟨tab.name, markAll ((tab.indexes.eraseP (isIndexOn colNames)).flatMap fun index => index.cols.map ColMeta.name) (unmarked tab.cols),
    tab.indexes.eraseP (isIndexOn colNames)⟩

theorem bare_withIndex (tab : TabMeta) (index : IndexMeta) : bare (tab.withIndex index).cols = bare tab.cols := bare_markAll _ _

theorem bare_withoutIndex (tab : TabMeta) (colNames : List Bytes) : bare (tab.withoutIndex colNames).cols = bare tab.cols :=
  (bare_markAll _ _).trans (bare_unmarked _)

theorem addIndex_ok {index : IndexMeta} (h : ∀ name ∈ index.cols.map ColMeta.name, name ∈ tab.cols.map ColMeta.name) :
    addIndex index tab = (.ok (), tab.withIndex index) := by
  unfold addIndex
  rw [modify_bind]
  exact each_setIndexed _ ⟨tab.name, tab.cols, tab.indexes ++ [index]⟩ h

theorem removeIndex_ok (h : tab.Kept n) (colNames : List Bytes) : removeIndex colNames tab = (.ok (), tab.withoutIndex colNames) := by
  unfold removeIndex
  rw [modify_bind, get_bind]
  refine each_setIndexed _ ⟨tab.name, unmarked tab.cols, tab.indexes.eraseP (isIndexOn colNames)⟩ fun name hname => ?_
  obtain ⟨index, hindex, hmem⟩ := List.mem_flatMap.1 hname
  show name ∈ (unmarked tab.cols).map ColMeta.name
  rw [names_eq_of_bare (bare_unmarked tab.cols)]
  exact h.found name (List.mem_flatMap.2 ⟨index, List.mem_of_mem_eraseP hindex, hmem⟩)

theorem markAll_append (names names' : List Bytes) (cols : List ColMeta) :
    markAll (names ++ names') cols = markAll names' (markAll names cols) := List.foldl_append

theorem Kept.withIndex {index : IndexMeta} (h : tab.Kept n) (hindex : index.Ok)
    (hfound : ∀ name ∈ index.cols.map ColMeta.name, name ∈ tab.cols.map ColMeta.name) : (tab.withIndex index).Kept (n + 1) := by
  have hbare := tab.bare_withIndex index
  have hindexed : (tab.withIndex index).indexed = tab.indexed ++ index.cols.map ColMeta.name := by
    unfold indexed TabMeta.withIndex
    rw [List.flatMap_append, List.flatMap_singleton]
  refine ⟨h.name, h.dot, ok_of_bare hbare h.cols, ?_, ?_, ?_, ?_, ?_⟩
  · rw [length_eq_of_bare hbare]
    exact h.colsSize
  · intro i hi
    rcases List.mem_append.1 hi with hi | hi
    · exact h.indexes i hi
    · rw [List.mem_singleton.1 hi]
      exact hindex
  · show (tab.indexes ++ [index]).length ≤ n + 1
    rw [List.length_append]
    exact Nat.add_le_add_right h.count 1
  · rw [hindexed, names_eq_of_bare hbare]
    intro name hname
    rcases List.mem_append.1 hname with hname | hname
    · exact h.found name hname
    · exact hfound name hname
  · rw [hindexed, markAll_append, unmarked_eq_of_bare hbare, h.marks]
    rfl

theorem Kept.withoutIndex (h : tab.Kept n) (colNames : List Bytes) : (tab.withoutIndex colNames).Kept n := by
  have hbare := tab.bare_withoutIndex colNames
  refine ⟨h.name, h.dot, ok_of_bare hbare h.cols, ?_, ?_, ?_, ?_, ?_⟩
  · rw [length_eq_of_bare hbare]
    exact h.colsSize
  · exact fun i hi => h.indexes i (List.mem_of_mem_eraseP hi)
  · exact (List.length_eraseP_le).trans h.count
  · rw [names_eq_of_bare hbare]
    intro name hname
    obtain ⟨i, hi, hmem⟩ := List.mem_flatMap.1 hname
    exact h.found name (List.mem_flatMap.2 ⟨i, List.mem_of_mem_eraseP hi, hmem⟩)
  · rw [unmarked_eq_of_bare hbare]
    rfl

theorem perm_eraseP {α : Type} {p : α → Bool} {a : α} : ∀ {as : List α}, as.find? p = some a → as.Perm (a :: as.eraseP p) := by
  intro as
  induction as with
  | nil => exact fun h => nomatch h
  | cons b as ih =>
      intro h
      by_cases hb : p b = true
      · rw [List.find?_cons_of_pos hb] at h
        rw [List.eraseP_cons_of_pos hb, Option.some.inj h]
      · rw [List.find?_cons_of_neg hb] at h
        rw [List.eraseP_cons_of_neg hb]
        exact ((ih h).cons b).trans (.swap _ _ _)

end TabMeta

end Rmdb.Catalog
