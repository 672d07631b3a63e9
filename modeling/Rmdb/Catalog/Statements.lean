import Rmdb.Catalog.Opened
import Rmdb.Lib.Run

/-!
# Runs of DDL statements

Every statement, whether it succeeds or throws, keeps the catalog and its files consistent, and so do checkpoints,
restarts and crashes between statements (`catalog_kept`).  A crash inside a `CREATE` leaves the old or the new
catalog, unless it leaves db.meta cut short (`create_crash`).  Inside a `DROP` there is also the time between a file's
removal and the new db.meta, when the database does not open (`drop_crash`).
-/

namespace Rmdb.Catalog

open Rmdb.Lib (Throws SortedMap run)
open Rmdb.Lib.Throws
open Rmdb.Txn (Bytes ColType)

/-- What the parser promises: identifiers, which have no dot, and lists that are not endless. -/
def Ddl.Parsed : Ddl → Prop
  | .createTable tabName colDefs => (IsName tabName ∧ 46 ∉ tabName) ∧ (∀ d ∈ colDefs, IsName d.name) ∧ colDefs.length < 2 ^ 64
  | .createIndex _ colNames _ => colNames.length < 2 ^ 31
  | _ => True

/-- The table of a `DROP`. -/
def Ddl.dropped : Ddl → Option Bytes
  | .dropTable t => some t
  | .dropIndex t _ => some t
  | _ => none

/-! ## Disks that survive -/

/-- The disk has all files of the catalog that is in db.meta, and `C` holds of that catalog. -/
def Disk.Whole (n : Nat) (C : DbMeta → Prop) (d : Disk) : Prop :=
  ∃ db : DbMeta, C db ∧ db.Kept n ∧ d.dbMeta = db.write ∧ d.Holds (db.tables ++ db.indexes)

/-- One file is missing. -/
def Disk.Missing (n : Nat) (d : Disk) : Prop :=
  ∃ (db : DbMeta) (p : Bytes), db.Kept n ∧ d.dbMeta = db.write ∧ p ∈ db.tables ++ db.indexes ∧ p ∉ d.files ∧
    ∀ q ∈ db.tables ++ db.indexes, q ≠ p → q ∈ d.files ∧ q ∈ d.headed

/-- db.meta has only a part of the catalog's text, or nothing of it. -/
def Disk.Torn (db : DbMeta) (d : Disk) : Prop := d.dbMeta <+: db.write ∧ d.dbMeta ≠ db.write

theorem Disk.torn_or_written {d d' : Disk} {db : DbMeta} (h : d' ∈ d.writing db.write) :
    d'.Torn db ∨ d' = { d with dbMeta := db.write } := by
  obtain ⟨part, hpart, rfl⟩ := List.mem_map.1 h
  by_cases hall : part = db.write
  · exact .inr (by rw [hall])
  · exact .inl ⟨(List.mem_inits _ _).1 hpart, hall⟩

namespace SmManager

variable {n : Nat} {s s' : SmManager} {C : DbMeta → Prop} {d : Disk}

theorem Consistent.whole (h : s.Consistent n) (hC : C s.db) (habove : d.Above s.disk) : d.Whole n C :=
  ⟨s.db, hC, h.db, habove.dbMeta.trans h.saved, habove.holds h.files⟩

theorem Consistent.mono {m : Nat} (h : s.Consistent n) (hnm : n ≤ m) : s.Consistent m :=
  ⟨h.db.mono hnm, h.saved, h.files, h.opened, h.fhs, h.ihs⟩

theorem reopened_whole (h : d.Whole n C) (hn : n < 2 ^ 64) : ∃ s, reopened d = some s ∧ s.Consistent n ∧ C s.db ∧ s.disk = d := by
  obtain ⟨db, hC, hdb, hsaved, hfiles⟩ := h
  obtain ⟨s, hs, rfl, hdisk, hcons⟩ := reopen_ok hdb hn hsaved hfiles
  refine ⟨s, ?_, hcons, hC, hdisk⟩
  unfold reopened
  rw [hs]

theorem reopen_missing_file (h : d.Missing n) (hn : n < 2 ^ 64) : ∃ p, p ∉ d.files ∧ (reopen d).1 = .error (.fileNotFound p) := by
  obtain ⟨db, p, hdb, hsaved, hmem, hp, hothers⟩ := h
  exact ⟨p, hp, reopen_missing hdb hn hsaved hp hmem hothers⟩

/-- Where a consistent state differs in nothing that counts. -/
theorem Consistent.congr (h : s.Consistent n) (hdb : s'.db = s.db) (hfhs : s'.fhs = s.fhs) (hihs : s'.ihs = s.ihs)
    (habove : s'.disk.Above s.disk) (hopened : ∀ p ∈ s.db.tables ++ s.db.indexes, p ∈ s'.opened) : s'.Consistent n := by
  refine ⟨hdb ▸ h.db, ?_, ?_, hdb ▸ hopened, ?_, ?_⟩
  · rw [hdb, habove.dbMeta]
    exact h.saved
  · rw [hdb]
    exact habove.holds h.files
  · rw [hfhs, hdb]
    exact h.fhs
  · rw [hihs, hdb]
    exact h.ihs

/-- What a `CREATE` does: the disks on the way are torn, or have the old or the new catalog. -/
structure Created (n : Nat) (s s' : SmManager) : Prop where
  consistent : s'.Consistent (n + 1)
  passed : ∃ ds, s'.passed = s.passed ++ ds ∧ ∀ d ∈ ds, d.Torn s'.db ∨ d.Whole (n + 1) fun db => db = s.db ∨ db = s'.db

theorem Created.same (h : s.Consistent n) : Created n s s :=
  ⟨h.mono (Nat.le_succ n), [], (List.append_nil _).symm, fun _ hd => absurd hd List.not_mem_nil⟩

/-- The disks of a `CREATE` that succeeds: the file is made, its first page written, then db.meta. -/
theorem Consistent.created_disks {d1 d2 : Disk} {db : DbMeta} (h : s.Consistent n) (hd1 : d1.Above s.disk) (hd2 : d2.Above s.disk)
    (hkept : db.Kept (n + 1)) (hholds : d2.Holds (db.tables ++ db.indexes)) :
    ∀ d ∈ [d1, d2] ++ d2.writing db.write, d.Torn db ∨ d.Whole (n + 1) fun db' => db' = s.db ∨ db' = db := by
  have hold := h.mono (Nat.le_succ n)
  intro d hd
  rcases List.mem_append.1 hd with hd | hd
  · rcases List.mem_pair.1 hd with rfl | rfl
    · exact .inr (hold.whole (.inl rfl) hd1)
    · exact .inr (hold.whole (.inl rfl) hd2)
  · rcases Disk.torn_or_written hd with htorn | rfl
    · exact .inl htorn
    · exact .inr ⟨db, .inr rfl, hkept, rfl, hholds⟩

/-! ## CREATE TABLE -/

theorem placeCols_names (tabName : Bytes) : ∀ (defs : List ColDef) (offset : BitVec 32),
    (placeCols tabName offset defs).map (fun c => (c.tabName, c.name, c.index)) = defs.map fun d => (tabName, d.name, false) := by
  intro defs
  induction defs with
  | nil => exact fun _ => rfl
  | cons d defs ih =>
      intro offset
      unfold placeCols
      rw [List.map_cons, List.map_cons, ih]

theorem kept_placeCols {tabName : Bytes} {defs : List ColDef} (hname : IsName tabName) (hdot : 46 ∉ tabName)
    (hdefs : ∀ d ∈ defs, IsName d.name) (hlen : defs.length < 2 ^ 64) : TabMeta.Kept n ⟨tabName, placeCols tabName 0 defs, []⟩ := by
  have hplaced := placeCols_names tabName defs 0
  have hcol : ∀ c ∈ placeCols tabName 0 defs, c.Ok ∧ c.index = false := by
    intro c hc
    have hmem : (c.tabName, c.name, c.index) ∈ defs.map fun d => (tabName, d.name, false) := by
      rw [← hplaced]
      exact List.mem_map.2 ⟨c, hc, rfl⟩
    obtain ⟨d, hd, heq⟩ := List.mem_map.1 hmem
    simp only [Prod.mk.injEq] at heq
    exact ⟨⟨heq.1 ▸ hname, heq.2.1 ▸ hdefs d hd⟩, heq.2.2.symm⟩
  refine ⟨hname, hdot, fun c hc => (hcol c hc).1, ?_, fun _ h => absurd h List.not_mem_nil, Nat.zero_le _,
    fun _ h => absurd h List.not_mem_nil, ?_⟩
  · have hlength := congrArg List.length hplaced
    rw [List.length_map, List.length_map] at hlength
    exact hlength.trans_lt hlen
  · show TabMeta.unmarked (placeCols tabName 0 defs) = placeCols tabName 0 defs
    unfold TabMeta.unmarked
    refine (List.map_congr_left fun c hc => ?_).trans (List.map_id _)
    show ({ c with index := false } : ColMeta) = c
    rw [← (hcol c hc).2]

theorem createTable_created {tabName : Bytes} {defs : List ColDef} (h : s.Consistent n)
    (hparsed : (Ddl.createTable tabName defs).Parsed) : ∃ r s', createTable tabName defs s = (r, s') ∧ Created n s s' := by
  obtain ⟨⟨hname, hdot⟩, hdefs, hlen⟩ := hparsed
  unfold createTable
  rw [get_bind]
  cases hfind : s.db.tabs.find? tabName with
  | some tab => exact ⟨_, s, rfl, .same h⟩
  | none =>
      rw [if_neg (by decide)]
      by_cases hsize : (totalLen (defs.map ColDef.len)).toInt < 1 ∨ (totalLen (defs.map ColDef.len)).toInt > RmManager.maxRecordSize
      · exact ⟨_, s, bind_error (RmManager.createFile_refused hsize), .same h⟩
      by_cases hfile : tabName ∈ s.disk.files
      · exact ⟨_, s, bind_error (RmManager.createFile_exists hsize hfile), .same h⟩
      obtain ⟨d1, hd1⟩ : ∃ d1, d1 = s.disk.withFile tabName := ⟨_, rfl⟩
      obtain ⟨d2, hd2⟩ : ∃ d2, d2 = d1.withHeader tabName := ⟨_, rfl⟩
      obtain ⟨tab, htab⟩ : ∃ tab : TabMeta, tab = ⟨tabName, placeCols tabName 0 defs, []⟩ := ⟨_, rfl⟩
      obtain ⟨db, hdb⟩ : ∃ db : DbMeta, db = ⟨s.db.name, s.db.tabs.set tabName tab⟩ := ⟨_, rfl⟩
      have hd1above : d1.Above s.disk := hd1 ▸ .withFile _ _
      have hd2above : d2.Above s.disk := hd2 ▸ (Disk.Above.withHeader _ _).trans hd1above
      have herase := SortedMap.erase_eq_self hfind
      have htables : db.tables.Perm (tabName :: s.db.tables) := by
        have hperm := s.db.tables_set_perm tabName tab
        rw [herase, ← hdb] at hperm
        exact hperm
      have hindexes : db.indexes.Perm s.db.indexes := by
        have hperm := s.db.indexes_set_perm tabName tab
        rw [herase, ← hdb, htab] at hperm
        exact hperm
      have hkept : db.Kept (n + 1) := by
        rw [hdb]
        refine h.db.set (Nat.le_succ n) (htab ▸ kept_placeCols hname hdot hdefs hlen) (htab ▸ rfl) ?_ ?_
        · rw [herase]
          exact Nat.add_le_add_right h.db.size 1
        · rw [herase, htab]
          exact h.db.distinct
      have hmem : ∀ p ∈ db.tables ++ db.indexes, p = tabName ∨ p ∈ s.db.tables ++ s.db.indexes := by
        intro p hp
        rcases List.mem_append.1 hp with hp | hp
        · rcases List.mem_cons.1 (htables.mem_iff.1 hp) with rfl | hp
          · exact .inl rfl
          · exact .inr (List.mem_append_left _ hp)
        · exact .inr (List.mem_append_right _ (hindexes.mem_iff.1 hp))
      have hholds : d2.Holds (db.tables ++ db.indexes) := by
        intro p hp
        rcases hmem p hp with rfl | hp
        · rw [hd2, hd1]
          exact ⟨List.mem_cons_self, mem_emplace.2 (.inl rfl)⟩
        · exact hd2above.holds h.files p hp
      -- the calls one after another
      have hcreate := RmManager.createFile_ok (s := s) hsize hfile
      rw [← hd1, ← hd2] at hcreate
      have htop : tabName ∈ d2.files ∧ tabName ∈ d2.headed := hholds tabName
        (List.mem_append_left _ (htables.mem_iff.2 List.mem_cons_self))
      rw [bind_ok hcreate, modify_bind]
      dsimp only
      rw [← htab, ← hdb, bind_ok (RmManager.openFile_ok (by exact htop.1) (by exact htop.2)), modify_bind, flushMeta_ok]
      refine ⟨_, _, rfl, ⟨hkept, rfl, hholds, ?_, ?_, ?_⟩, ?_⟩
      · intro p hp
        rcases hmem p hp with rfl | hp
        · exact mem_emplace.2 (.inl rfl)
        · by_cases hpt : p = tabName
          · exact mem_emplace.2 (.inl hpt)
          · exact mem_emplace.2 (.inr (mem_erased.2 ⟨mem_emplace.2 (.inr (h.opened p hp)), hpt⟩))
      · have hnot : tabName ∉ s.fhs := fun hmem => by
          obtain ⟨entry, hentry, heq⟩ := List.mem_map.1 (h.fhs.mem_iff.1 hmem)
          exact SortedMap.find?_eq_none_iff.1 hfind entry hentry heq
        exact ((emplace_perm hnot).trans (h.fhs.cons tabName)).trans htables.symm
      · exact h.ihs.trans hindexes.symm
      · exact ⟨[d1, d2] ++ d2.writing db.write, List.append_assoc _ _ _, h.created_disks hd1above hd2above hkept hholds⟩

/-! ## CREATE INDEX -/

theorem findCols_cases (tab : TabMeta) (s : SmManager) : ∀ names : List Bytes, (∃ e, findCols tab names s = (.error e, s)) ∨
    ∃ cols, findCols tab names s = (.ok cols, s) ∧ cols.map ColMeta.name = names ∧ ∀ c ∈ cols, c ∈ tab.cols := by
  intro names
  induction names with
  | nil => exact .inr ⟨[], rfl, rfl, fun _ h => absurd h List.not_mem_nil⟩
  | cons name names ih =>
      unfold findCols
      cases hcol : tab.getCol name with
      | none => exact .inl ⟨_, rfl⟩
      | some col =>
          have hbeq : (col.name == name) = true := List.find?_some (p := fun c : ColMeta => c.name == name) hcol
          have hname : col.name = name := eq_of_beq hbeq
          have hmem : col ∈ tab.cols := List.mem_of_find?_eq_some hcol
          rcases ih with ⟨e, he⟩ | ⟨cols, hcols, hnames, hsub⟩
          · exact .inl ⟨e, bind_error he⟩
          · exact .inr ⟨col :: cols, bind_ok hcols, by rw [List.map_cons, hname, hnames], List.forall_mem_cons.2 ⟨hmem, hsub⟩⟩

theorem createIndex_file {path : Bytes} (hfile : path ∉ s.disk.files) (colTotLen : BitVec 32) :
    (∃ e, IxManager.createIndex path colTotLen s = (.error e, { s with
      disk := s.disk.withFile path, passed := s.passed ++ [s.disk.withFile path], opened := emplace path s.opened })) ∨
    IxManager.createIndex path colTotLen s = (.ok (), { s with
      disk := (s.disk.withFile path).withHeader path
      passed := s.passed ++ [s.disk.withFile path, (s.disk.withFile path).withHeader path]
      opened := erased path (emplace path s.opened) }) := by
  unfold IxManager.createIndex
  rw [bind_ok ((DiskManager.createFile_ok hfile).trans (DiskManager.onDisk_apply _ s)),
    bind_ok (DiskManager.openFile_ok (by exact List.mem_cons_self))]
  by_cases hlen : colTotLen.toInt > IxManager.maxColLen
  · rw [if_pos hlen]
    exact .inl ⟨_, rfl⟩
  rw [if_neg hlen]
  by_cases horder : ((IxManager.btreeOrder colTotLen).any fun order => order > 2) = true
  · rw [if_pos horder, DiskManager.writeHeader, bind_ok (DiskManager.onDisk_apply _ _),
      DiskManager.closeFile_ok (by exact mem_emplace.2 (.inl rfl)), List.append_assoc]
    exact .inr rfl
  · rw [if_neg horder]
    exact .inl ⟨_, rfl⟩

/-- A statement that fails and leaves a file behind which no table or index has. -/
theorem Created.beside {path : Bytes} (h : s.Consistent n) (hfile : path ∉ s.disk.files) (hdb : s'.db = s.db) (hfhs : s'.fhs = s.fhs)
    (hihs : s'.ihs = s.ihs) (hdisk : s'.disk.Above s.disk) (hopened : ∀ p ∈ s.opened, p ≠ path → p ∈ s'.opened) {ds : List Disk}
    (hpassed : s'.passed = s.passed ++ ds) (hds : ∀ d ∈ ds, d.Above s.disk) : Created n s s' := by
  have hold := h.mono (Nat.le_succ n)
  refine ⟨hold.congr hdb hfhs hihs hdisk fun p hp => ?_, ds, hpassed, fun d hd => .inr (hold.whole (.inl rfl) (hds d hd))⟩
  refine hopened p (h.opened p hp) fun heq => hfile ?_
  rw [← heq]
  exact (h.files p hp).1

theorem createIndex_created {tabName : Bytes} {colNames : List Bytes} {filled : Bool} (h : s.Consistent n)
    (hparsed : (Ddl.createIndex tabName colNames filled).Parsed) :
    ∃ r s', createIndex tabName colNames filled s = (r, s') ∧ Created n s s' := by
  have hlen : colNames.length < 2 ^ 31 := hparsed
  unfold createIndex
  rw [get_bind]
  cases hfind : s.db.tabs.find? tabName with
  | none => exact ⟨_, s, rfl, .same h⟩
  | some tab =>
      dsimp only
      rcases findCols_cases tab s colNames with ⟨e, he⟩ | ⟨cols, hcols, hnames, hsub⟩
      · exact ⟨_, s, bind_error he, .same h⟩
      rw [bind_ok hcols]
      obtain ⟨path, hpath⟩ : ∃ path, path = IxManager.indexName tabName (cols.map ColMeta.name) := ⟨_, rfl⟩
      rw [← hpath]
      by_cases hfile : path ∈ s.disk.files
      · rw [if_pos (List.contains_iff_mem.2 hfile)]
        exact ⟨_, s, rfl, .same h⟩
      rw [if_neg fun hc => hfile (List.contains_iff_mem.1 hc)]
      have hentry := SortedMap.mem_of_find? hfind
      have htabKept := h.db.tabs _ hentry
      obtain ⟨d1, hd1⟩ : ∃ d1, d1 = s.disk.withFile path := ⟨_, rfl⟩
      obtain ⟨d2, hd2⟩ : ∃ d2, d2 = d1.withHeader path := ⟨_, rfl⟩
      have hd1above : d1.Above s.disk := hd1 ▸ .withFile _ _
      have hd2above : d2.Above s.disk := hd2 ▸ (Disk.Above.withHeader _ _).trans hd1above
      rcases createIndex_file hfile (totalLen (cols.map ColMeta.len)) with ⟨e, he⟩ | hcreate
      · rw [← hd1] at he
        refine ⟨_, _, bind_error he, .beside h hfile rfl rfl rfl hd1above (fun p hp _ => mem_emplace.2 (.inr hp)) rfl ?_⟩
        exact List.forall_mem_singleton.2 hd1above
      rw [← hd1, ← hd2] at hcreate
      have htop : path ∈ d2.files ∧ path ∈ d2.headed := by
        rw [hd2, hd1]
        exact ⟨List.mem_cons_self, mem_emplace.2 (.inl rfl)⟩
      have hfhs : tabName ∈ s.fhs := h.fhs.mem_iff.2 (List.mem_map.2 ⟨_, hentry, rfl⟩)
      have hopened : ∀ p ∈ s.opened, p ≠ path → p ∈ emplace path (erased path (emplace path s.opened)) := fun p hp hne =>
        mem_emplace.2 (.inr (mem_erased.2 ⟨mem_emplace.2 (.inr hp), hne⟩))
      rw [bind_ok hcreate, IxManager.openIndex_eq, bind_ok (RmManager.openFile_ok (by exact htop.1) (by exact htop.2)),
        List.contains_iff_mem.2 hfhs]
      rw [if_neg (by decide)]
      cases filled with
      | false =>
          refine ⟨_, _, rfl, .beside h hfile rfl rfl rfl hd2above hopened rfl ?_⟩
          exact List.forall_mem_cons.2 ⟨hd1above, List.forall_mem_singleton.2 hd2above⟩
      | true =>
          obtain ⟨index, hindex⟩ : ∃ index : IndexMeta, index =
            ⟨tabName, totalLen (cols.map ColMeta.len), BitVec.ofNat 32 colNames.length, cols⟩ := ⟨_, rfl⟩
          obtain ⟨db, hdb⟩ : ∃ db : DbMeta, db = ⟨s.db.name, s.db.tabs.set tabName (tab.withIndex index)⟩ := ⟨_, rfl⟩
          have hindexPath : indexPath tabName index = path := by
            rw [hindex, hpath]
            rfl
          have hindexOk : index.Ok := by
            rw [hindex]
            refine ⟨?_, ?_, fun c hc => htabKept.cols c (hsub c hc)⟩
            · show IsName tabName
              rw [show tabName = tab.name from h.db.own _ hentry]
              exact htabKept.name
            show (BitVec.ofNat 32 colNames.length).toInt = cols.length
            have hcount : cols.length = colNames.length := by rw [← hnames, List.length_map]
            rw [hcount, BitVec.toInt_ofNat', Int.bmod_eq_of_le] <;> omega
          have hfound : ∀ name ∈ index.cols.map ColMeta.name, name ∈ tab.cols.map ColMeta.name := by
            rw [hindex]
            intro name hname
            obtain ⟨c, hc, rfl⟩ := List.mem_map.1 hname
            exact List.mem_map_of_mem (hsub c hc)
          have hnew : path ∉ s.db.indexes := fun hmem => hfile (h.files path (List.mem_append_right _ hmem)).1
          obtain ⟨hkept, htables, hindexes⟩ := h.db.withIndex hfind hindexOk hfound (by rw [hindexPath]; exact hnew)
          rw [← hdb] at hkept htables hindexes
          rw [hindexPath] at hindexes
          have hmem : ∀ p ∈ db.tables ++ db.indexes, p = path ∨ p ∈ s.db.tables ++ s.db.indexes := by
            intro p hp
            rcases List.mem_append.1 hp with hp | hp
            · exact .inr (List.mem_append_left _ (htables.mem_iff.1 hp))
            · rcases List.mem_cons.1 (hindexes.mem_iff.1 hp) with rfl | hp
              · exact .inl rfl
              · exact .inr (List.mem_append_right _ hp)
          have hholds : d2.Holds (db.tables ++ db.indexes) := by
            intro p hp
            rcases hmem p hp with rfl | hp
            · exact htop
            · exact hd2above.holds h.files p hp
          rw [if_neg (by decide), modify_bind, ← hindex]
          have htable : ∀ s1 : SmManager, s1.db = s.db →
              onTable tabName (TabMeta.addIndex index) s1 = (.ok (), { s1 with db := db }) := by
            intro s1 hs1
            unfold onTable
            rw [hs1, hfind]
            dsimp only
            rw [TabMeta.addIndex_ok hfound, hdb]
          rw [bind_ok (htable _ (by rfl)), flushMeta_ok]
          refine ⟨_, _, rfl, ⟨hkept, rfl, hholds, ?_, h.fhs.trans htables.symm, ?_⟩, ?_⟩
          · intro p hp
            rcases hmem p hp with rfl | hp
            · exact mem_emplace.2 (.inl rfl)
            · by_cases hpp : p = path
              · exact mem_emplace.2 (.inl hpp)
              · exact hopened p (h.opened p hp) hpp
          · have hnot : path ∉ s.ihs := fun hmem => hnew (h.ihs.mem_iff.1 hmem)
            exact ((emplace_perm hnot).trans (h.ihs.cons path)).trans hindexes.symm
          · exact ⟨[d1, d2] ++ d2.writing db.write, List.append_assoc _ _ _, h.created_disks hd1above hd2above hkept hholds⟩

/-! ## DROP INDEX -/

/-- The catalog while a table is being dropped: nothing else has changed, and the table has only columns and indexes that it
had. -/
structure Within (t : Bytes) (db db0 : DbMeta) : Prop where
  name : db.name = db0.name
  others : db.tabs.erase t = db0.tabs.erase t
  table : ∀ tab, db.tabs.find? t = some tab → ∃ tab0, db0.tabs.find? t = some tab0 ∧ tab.indexes.Sublist tab0.indexes ∧
    TabMeta.bare tab.cols = TabMeta.bare tab0.cols

theorem Within.refl (t : Bytes) (db : DbMeta) : Within t db db := ⟨rfl, rfl, fun tab h => ⟨tab, h, .refl _, rfl⟩⟩

theorem Within.trans {t : Bytes} {db db1 db0 : DbMeta} (h : Within t db db1) (h' : Within t db1 db0) : Within t db db0 := by
  refine ⟨h.name.trans h'.name, h.others.trans h'.others, fun tab htab => ?_⟩
  obtain ⟨tab1, h1, hsub1, hbare1⟩ := h.table tab htab
  obtain ⟨tab0, h0, hsub0, hbare0⟩ := h'.table tab1 h1
  exact ⟨tab0, h0, hsub1.trans hsub0, hbare1.trans hbare0⟩

/-- What a `DROP` does: the disks on the way are torn, lack one file, or have a catalog in between. -/
structure Dropped (n : Nat) (t : Bytes) (s s' : SmManager) (ds : List Disk) : Prop where
  consistent : s'.Consistent n
  within : Within t s'.db s.db
  passed : s'.passed = s.passed ++ ds
  survives : ∀ d ∈ ds, (∃ db, Within t db s.db ∧ d.Torn db) ∨ d.Whole n (fun db => Within t db s.db) ∨ d.Missing n

theorem Dropped.same (h : s.Consistent n) (t : Bytes) : Dropped n t s s [] :=
  ⟨h, .refl _ _, (List.append_nil _).symm, fun _ hd => absurd hd List.not_mem_nil⟩

theorem Dropped.trans {t : Bytes} {s s1 s2 : SmManager} {ds ds' : List Disk} (h : Dropped n t s s1 ds) (h' : Dropped n t s1 s2 ds') :
    Dropped n t s s2 (ds ++ ds') := by
  refine ⟨h'.consistent, h'.within.trans h.within, by rw [h'.passed, h.passed, List.append_assoc], fun d hd => ?_⟩
  rcases List.mem_append.1 hd with hd | hd
  · exact h.survives d hd
  · rcases h'.survives d hd with ⟨db, hwithin, htorn⟩ | ⟨db, hwithin, hwhole⟩ | hmissing
    · exact .inl ⟨db, hwithin.trans h.within, htorn⟩
    · exact .inr (.inl ⟨db, hwithin.trans h.within, hwhole⟩)
    · exact .inr (.inr hmissing)

def without (d : Disk) (p : Bytes) : Disk := { d with files := erased p d.files, headed := erased p d.headed }

/-- The last calls of a `DROP`, behind the closing of the file `p`: it is removed, then db.meta is written. -/
theorem dropped_file (s0 : SmManager) {t p : Bytes} {db : DbMeta} (h : s.Consistent n) (hwithin : Within t db s.db) (hkept : db.Kept n)
    (hpaths : (s.db.tables ++ s.db.indexes).Perm (p :: (db.tables ++ db.indexes)))
    (hdisk : s0.disk = without (s.disk.withHeader p) p)
    (hpassed : s0.passed = s.passed ++ [s.disk.withHeader p, without (s.disk.withHeader p) p])
    (hopened : s0.opened = erased p s.opened) (hfhs : s0.fhs.Perm db.tables) (hihs : s0.ihs.Perm db.indexes) (hdb : s0.db = db) :
    ∃ s' ds, flushMeta s0 = (.ok (), s') ∧ s'.db = db ∧ Dropped n t s s' ds ∧ ∃ d ∈ ds, d.Missing n := by
  obtain ⟨d1, hd1⟩ : ∃ d1, d1 = s.disk.withHeader p := ⟨_, rfl⟩
  obtain ⟨d2, hd2⟩ : ∃ d2, d2 = without d1 p := ⟨_, rfl⟩
  rw [← hd1, ← hd2] at hdisk hpassed
  have hd1above : d1.Above s.disk := hd1 ▸ .withHeader _ _
  have hp : p ∉ db.tables ++ db.indexes := (List.nodup_cons.1 (hpaths.nodup_iff.1 h.db.nodup)).1
  have hold : ∀ q ∈ db.tables ++ db.indexes, q ∈ s.db.tables ++ s.db.indexes ∧ q ≠ p := by
    intro q hq
    refine ⟨hpaths.mem_iff.2 (List.mem_cons_of_mem _ hq), ?_⟩
    rintro rfl
    exact hp hq
  have hremain : ∀ q ∈ s.db.tables ++ s.db.indexes, q ≠ p → q ∈ d2.files ∧ q ∈ d2.headed := by
    intro q hq hne
    obtain ⟨h1, h2⟩ := hd1above.holds h.files q hq
    rw [hd2]
    exact ⟨mem_erased.2 ⟨h1, hne⟩, mem_erased.2 ⟨h2, hne⟩⟩
  have hholds : d2.Holds (db.tables ++ db.indexes) := fun q hq => hremain q (hold q hq).1 (hold q hq).2
  have hmissing : d2.Missing n := by
    refine ⟨s.db, p, h.db, ?_, hpaths.mem_iff.2 List.mem_cons_self, ?_, hremain⟩
    · rw [hd2, hd1]
      exact h.saved
    · rw [hd2]
      exact fun hmem => (mem_erased.1 hmem).2 rfl
  refine ⟨_, [d1, d2] ++ d2.writing db.write, flushMeta_ok s0, hdb, ⟨?_, hdb ▸ hwithin, ?_, ?_⟩, d2,
    List.mem_append_left _ (List.mem_cons_of_mem _ List.mem_cons_self), hmissing⟩
  · refine ⟨hdb ▸ hkept, rfl, ?_, ?_, hdb ▸ hfhs, hdb ▸ hihs⟩
    · rw [hdb, hdisk]
      exact hholds
    · rw [hdb, hopened]
      exact fun q hq => mem_erased.2 ⟨h.opened q (hold q hq).1, (hold q hq).2⟩
  · rw [hdb, hdisk, hpassed]
    exact List.append_assoc _ _ _
  · intro d hd
    rcases List.mem_append.1 hd with hd | hd
    · rcases List.mem_pair.1 hd with rfl | rfl
      · exact .inr (.inl (h.whole (.refl _ _) hd1above))
      · exact .inr (.inr hmissing)
    · rcases Disk.torn_or_written hd with htorn | rfl
      · exact .inl ⟨db, hwithin, htorn⟩
      · exact .inr (.inl ⟨db, hwithin, hkept, rfl, hholds⟩)

theorem dropIndex_dropped {t : Bytes} {tab : TabMeta} {index : IndexMeta} {colNames : List Bytes} (h : s.Consistent n)
    (hfind : s.db.tabs.find? t = some tab) (hindex : tab.indexes.find? (TabMeta.isIndexOn colNames) = some index) :
    ∃ s' ds, dropIndex t colNames s = (.ok (), s') ∧ s'.db = ⟨s.db.name, s.db.tabs.set t (tab.withoutIndex colNames)⟩ ∧
      Dropped n t s s' ds ∧ ∃ d ∈ ds, d.Missing n := by
  obtain ⟨hkept, htables, hindexes⟩ := h.db.withoutIndex hfind hindex
  obtain ⟨db, hdb⟩ : ∃ db : DbMeta, db = ⟨s.db.name, s.db.tabs.set t (tab.withoutIndex colNames)⟩ := ⟨_, rfl⟩
  obtain ⟨p, hp⟩ : ∃ p, p = indexPath t index := ⟨_, rfl⟩
  rw [← hdb, ← hp] at hindexes
  rw [← hdb] at hkept htables
  have hmem : p ∈ s.db.indexes := hindexes.mem_iff.2 List.mem_cons_self
  have hpath : p ∈ s.db.tables ++ s.db.indexes := List.mem_append_right _ hmem
  have hihs : p ∈ s.ihs := h.ihs.mem_iff.2 hmem
  have hihsNodup : s.ihs.Nodup := h.ihs.nodup_iff.2 h.db.distinct
  have hwithin : Within t db s.db := by
    rw [hdb]
    refine ⟨rfl, SortedMap.erase_set _ _ _, fun tab' htab' => ?_⟩
    rw [SortedMap.find?_set_self] at htab'
    obtain rfl := Option.some.inj htab'
    exact ⟨tab, hfind, List.eraseP_sublist, tab.bare_withoutIndex colNames⟩
  unfold dropIndex
  rw [get_bind, hfind]
  dsimp only
  rw [hindex]
  dsimp only
  have hname : IxManager.indexName t (index.cols.map ColMeta.name) = p := by
    rw [hp]
    rfl
  rw [hname, if_pos (List.contains_iff_mem.2 hihs), IxManager.closeIndex_eq]
  rw [bind_ok (RmManager.closeFile_ok (h.opened p hpath)), modify_bind, bind_ok ((DiskManager.destroyFile_ok
    (by exact fun hmem => (mem_erased.1 hmem).2 rfl) (by exact (h.files p hpath).1)).trans (DiskManager.onDisk_apply _ _))]
  have htable : ∀ s1 : SmManager, s1.db = s.db →
      onTable t (TabMeta.removeIndex colNames) s1 = (.ok (), { s1 with db := db }) := by
    intro s1 hs1
    unfold onTable
    rw [hs1, hfind]
    dsimp only
    rw [TabMeta.removeIndex_ok (h.db.tabs _ (SortedMap.mem_of_find? hfind)), hdb]
  rw [bind_ok (htable _ (by rfl)), ← hdb]
  refine dropped_file _ h hwithin hkept ?_ rfl ?_ rfl (h.fhs.trans htables.symm) ?_ rfl
  · exact ((hindexes.append_left _).trans List.perm_middle).trans ((htables.symm.append_right _).cons p)
  · exact List.append_assoc _ _ _
  · exact erased_perm (h.ihs.trans hindexes) hihsNodup

theorem dropIndex_cases {t : Bytes} (colNames : List Bytes) (h : s.Consistent n) :
    (∃ e, dropIndex t colNames s = (.error e, s)) ∨
      ∃ s' ds, dropIndex t colNames s = (.ok (), s') ∧ Dropped n t s s' ds ∧ ∃ d ∈ ds, d.Missing n := by
  cases hfind : s.db.tabs.find? t with
  | none =>
      refine .inl ⟨.tableNotFound t, ?_⟩
      unfold dropIndex
      rw [get_bind, hfind]
      rfl
  | some tab =>
      cases hindex : tab.indexes.find? (TabMeta.isIndexOn colNames) with
      | none =>
          refine .inl ⟨.indexNotFound t colNames, ?_⟩
          unfold dropIndex
          rw [get_bind, hfind]
          dsimp only
          rw [hindex]
          rfl
      | some index =>
          obtain ⟨s', ds, hdrop, -, hdropped, hmissing⟩ := dropIndex_dropped h hfind hindex
          exact .inr ⟨s', ds, hdrop, hdropped, hmissing⟩

/-! ## DROP TABLE -/

theorem isIndexOn_self {index : IndexMeta} (h : index.Ok) : TabMeta.isIndexOn (index.cols.map ColMeta.name) index = true := by
  unfold TabMeta.isIndexOn
  rw [h.colNum, List.length_map, List.take_of_length_le (by rw [List.length_map])]
  simp

/-- The indexes of a table, one after another. -/
theorem dropIndexes_dropped {t : Bytes} : ∀ (indexes : List IndexMeta) (s : SmManager) (tab : TabMeta), s.Consistent n →
    s.db.tabs.find? t = some tab → tab.indexes = indexes →
      ∃ s' ds tab', each (fun index : IndexMeta => dropIndex t (index.cols.map ColMeta.name)) indexes s = (.ok (), s') ∧
        Dropped n t s s' ds ∧ s'.db.tabs.find? t = some tab' ∧ tab'.indexes = [] := by
  intro indexes
  induction indexes with
  | nil => exact fun s tab h hfind hindexes => ⟨s, [], tab, rfl, .same h t, hfind, hindexes⟩
  | cons index indexes ih =>
      intro s tab h hfind hindexes
      have hok : index.Ok := (h.db.tabs _ (SortedMap.mem_of_find? hfind)).indexes index (by rw [hindexes]; exact List.mem_cons_self)
      have hself := isIndexOn_self hok
      have hindex : tab.indexes.find? (TabMeta.isIndexOn (index.cols.map ColMeta.name)) = some index := by
        rw [hindexes, List.find?_cons_of_pos hself]
      obtain ⟨s1, ds1, hdrop, hdb, hdropped, -⟩ := dropIndex_dropped h hfind hindex
      have hfind1 : s1.db.tabs.find? t = some (tab.withoutIndex (index.cols.map ColMeta.name)) := by
        rw [hdb]
        exact SortedMap.find?_set_self _ _ _
      have hindexes1 : (tab.withoutIndex (index.cols.map ColMeta.name)).indexes = indexes := by
        show tab.indexes.eraseP _ = indexes
        rw [hindexes, List.eraseP_cons_of_pos hself]
      obtain ⟨s2, ds2, tab', hrest, hdropped2, hfind2, hnone⟩ := ih s1 _ hdropped.consistent hfind1 hindexes1
      exact ⟨s2, ds1 ++ ds2, tab', (each_cons_ok (f := fun index : IndexMeta => dropIndex t (index.cols.map ColMeta.name)) hdrop).trans hrest, hdropped.trans hdropped2, hfind2, hnone⟩

theorem dropTable_cases {t : Bytes} (h : s.Consistent n) :
    (∃ e, dropTable t s = (.error e, s)) ∨
      ∃ s' ds, dropTable t s = (.ok (), s') ∧ Dropped n t s s' ds ∧ ∃ d ∈ ds, d.Missing n := by
  unfold dropTable
  rw [get_bind]
  cases hfind : s.db.tabs.find? t with
  | none => exact .inl ⟨_, rfl⟩
  | some tab =>
      obtain ⟨s1, ds1, tab1, hindexes, hdropped, hfind1, hnone⟩ := dropIndexes_dropped tab.indexes s tab h hfind rfl
      have h1 := hdropped.consistent
      obtain ⟨db, hdb⟩ : ∃ db : DbMeta, db = ⟨s1.db.name, s1.db.tabs.erase t⟩ := ⟨_, rfl⟩
      have hkept : db.Kept n := hdb ▸ h1.db.erase t
      have htables : s1.db.tables.Perm (t :: db.tables) := by
        rw [hdb]
        exact DbMeta.tables_perm hfind1
      have hindexesPerm : s1.db.indexes.Perm db.indexes := by
        have hperm := DbMeta.indexes_perm hfind1
        unfold indexPaths at hperm
        rw [hnone] at hperm
        rw [hdb]
        exact hperm
      have hwithin : Within t db s1.db := by
        rw [hdb]
        refine ⟨rfl, SortedMap.erase_erase _ _, fun tab' htab' => ?_⟩
        exact absurd rfl (SortedMap.mem_erase.1 (SortedMap.mem_of_find? htab')).2
      have htable : t ∈ s1.db.tables := htables.mem_iff.2 List.mem_cons_self
      have hpath : t ∈ s1.db.tables ++ s1.db.indexes := List.mem_append_left _ htable
      have hfhs : t ∈ s1.fhs := h1.fhs.mem_iff.2 htable
      have hfhsNodup : s1.fhs.Nodup := h1.fhs.nodup_iff.2 s1.db.tables_nodup
      dsimp only
      rw [bind_ok hindexes, get_bind, List.contains_iff_mem.2 hfhs, if_neg (by decide), bind_ok (RmManager.closeFile_ok (h1.opened t hpath)),
        modify_bind, bind_ok ((DiskManager.destroyFile_ok (by exact fun hmem => (mem_erased.1 hmem).2 rfl)
          (by exact (h1.files t hpath).1)).trans (DiskManager.onDisk_apply _ _)), modify_bind]
      obtain ⟨s2, ds2, hflush, -, hdropped2, d, hd, hmissing⟩ := dropped_file
        { s1 with
          disk := without (s1.disk.withHeader t) t
          passed := s1.passed ++ [s1.disk.withHeader t] ++ [without (s1.disk.withHeader t) t]
          opened := erased t s1.opened, fhs := erased t s1.fhs, db := ⟨s1.db.name, s1.db.tabs.erase t⟩ }
        h1 hwithin hkept (htables.append hindexesPerm) rfl (List.append_assoc _ _ _) rfl (erased_perm (h1.fhs.trans htables) hfhsNodup)
        (h1.ihs.trans hindexesPerm) hdb.symm
      exact .inr ⟨s2, ds1 ++ ds2, hflush, hdropped.trans hdropped2, d, List.mem_append_right _ hd, hmissing⟩

/-! ## Runs -/

def Event.Parsed : Event → Prop
  | .run stmt => stmt.Parsed
  | _ => True

/-- `s` is reached from the new database of the name. -/
structure Reached (name : Bytes) (evs : List Event) (s : SmManager) : Prop where
  isName : IsName name
  parsed : ∀ ev ∈ evs, ev.Parsed
  length : evs.length + 1 < 2 ^ 64
  run : ∃ s0, reopened (createDb name) = some s0 ∧ run step s0 evs = some s

theorem Consistent.begin (h : s.Consistent n) : Consistent n { s with passed := [s.disk] } :=
  h.congr rfl rfl rfl (.refl _) h.opened

theorem exec_consistent {stmt : Ddl} (h : s.Consistent n) (hstmt : stmt.Parsed) : (exec stmt s).2.Consistent (n + 1) := by
  unfold exec
  cases stmt with
  | createTable tabName colDefs =>
      obtain ⟨r, s', hrun, hcreated⟩ := createTable_created h.begin hstmt
      rw [Ddl.run, hrun]
      exact hcreated.consistent
  | createIndex tabName colNames filled =>
      obtain ⟨r, s', hrun, hcreated⟩ := createIndex_created h.begin hstmt
      rw [Ddl.run, hrun]
      exact hcreated.consistent
  | dropTable tabName =>
      rcases dropTable_cases (t := tabName) h.begin with ⟨e, he⟩ | ⟨s', ds, hrun, hdropped, -⟩
      · rw [Ddl.run, he]
        exact h.begin.mono (Nat.le_succ n)
      · rw [Ddl.run, hrun]
        exact hdropped.consistent.mono (Nat.le_succ n)
  | dropIndex tabName colNames =>
      rcases dropIndex_cases (t := tabName) colNames h.begin with ⟨e, he⟩ | ⟨s', ds, hrun, hdropped, -⟩
      · rw [Ddl.run, he]
        exact h.begin.mono (Nat.le_succ n)
      · rw [Ddl.run, hrun]
        exact hdropped.consistent.mono (Nat.le_succ n)

/-- The database always opens again, with the catalog it was left with. -/
theorem Consistent.reopened (h : s.Consistent n) (hn : n < 2 ^ 64) :
    ∃ s', SmManager.reopened s.disk = some s' ∧ s'.Consistent n ∧ s'.db = s.db := by
  obtain ⟨s', hs', hcons, hdb, -⟩ := reopened_whole (h.whole (C := fun db => db = s.db) rfl (.refl _)) hn
  exact ⟨s', hs', hcons, hdb⟩

theorem step_consistent {ev : Event} (h : s.Consistent n) (hn : n + 1 < 2 ^ 64) (hev : ev.Parsed) :
    ∃ s', step s ev = some s' ∧ s'.Consistent (n + 1) := by
  cases ev with
  | run stmt =>
      have hexec := exec_consistent h hev
      unfold step
      dsimp only
      generalize exec stmt s = r at hexec ⊢
      obtain ⟨r, s1⟩ := r
      obtain ⟨s2, hs2, hcons2, -⟩ := hexec.reopened hn
      cases r with
      | ok _ => exact ⟨s1, rfl, hexec⟩
      | error e =>
          by_cases he : e = .died
          · subst he
            exact ⟨s2, hs2, hcons2⟩
          · refine ⟨s1, ?_, hexec⟩
            cases e with
            | died => exact absurd rfl he
            | _ => rfl
  | checkpoint =>
      have hflush : ((flushMeta s).2).Consistent n := by
        refine h.congr rfl rfl rfl ?_ h.opened
        rw [flushMeta_ok]
        exact ⟨fun _ hp => hp, fun _ hp => hp, h.saved.symm⟩
      exact ⟨_, rfl, hflush.mono (Nat.le_succ n)⟩
  | restart =>
      rcases closeDb_outcome h with ⟨_, s1, hclose, habove⟩ | ⟨_, _, _, hfalse⟩
      · obtain ⟨s2, hs2, hcons2, -, -⟩ := reopened_whole (h.whole (C := fun _ => True) trivial habove) (by omega)
        refine ⟨s2, ?_, hcons2.mono (Nat.le_succ n)⟩
        unfold step
        dsimp only
        rw [hclose]
        exact hs2
      · exact hfalse.elim
  | crash =>
      obtain ⟨s2, hs2, hcons2, -⟩ := h.reopened (by omega)
      exact ⟨s2, hs2, hcons2.mono (Nat.le_succ n)⟩

theorem run_consistent : ∀ (evs : List Event) (n : Nat) (s : SmManager), s.Consistent n → n + evs.length < 2 ^ 64 →
    (∀ ev ∈ evs, ev.Parsed) → ∃ s', run step s evs = some s' ∧ s'.Consistent (n + evs.length) := by
  intro evs
  induction evs with
  | nil => exact fun n s h _ _ => ⟨s, rfl, h⟩
  | cons ev evs ih =>
      intro n s h hn hevs
      rw [List.length_cons] at hn ⊢
      obtain ⟨hev, hrest⟩ := List.forall_mem_cons.1 hevs
      obtain ⟨s1, hs1, h1⟩ := step_consistent h (by omega) hev
      obtain ⟨s', hs', h'⟩ := ih (n + 1) s1 h1 (by omega) hrest
      refine ⟨s', ?_, ?_⟩
      · rw [Lib.run_cons, hs1, Option.bind_some, hs']
      · rw [Nat.add_comm evs.length 1, ← Nat.add_assoc]
        exact h'

theorem created_consistent {name : Bytes} (hname : IsName name) :
    ∃ s0, reopened (createDb name) = some s0 ∧ s0.Consistent 0 ∧ s0.db = ⟨name, .empty⟩ := by
  have hkept : (DbMeta.mk name .empty).Kept 0 := ⟨hname, fun _ h => absurd h List.not_mem_nil, fun _ h => absurd h List.not_mem_nil,
    le_rfl, List.nodup_nil⟩
  have hwhole : (createDb name).Whole 0 fun db => db = ⟨name, .empty⟩ :=
    ⟨_, rfl, hkept, rfl, fun _ hp => absurd hp List.not_mem_nil⟩
  obtain ⟨s0, hs0, hcons, hdb, -⟩ := reopened_whole hwhole (by decide)
  exact ⟨s0, hs0, hcons, hdb⟩

theorem Reached.consistent {name : Bytes} {evs : List Event} (h : Reached name evs s) : s.Consistent evs.length := by
  obtain ⟨s0, hs0, hrun⟩ := h.run
  obtain ⟨s1, hs1, hcons, -⟩ := created_consistent h.isName
  obtain rfl : s0 = s1 := Option.some.inj (hs0.symm.trans hs1)
  have hlen := h.length
  obtain ⟨s', hs', h'⟩ := run_consistent evs 0 s0 hcons (by omega) h.parsed
  rw [hrun] at hs'
  rw [Option.some.inj hs', ← Nat.zero_add evs.length]
  exact h'

/-- DDL statements that succeed or fail, checkpoints, restarts and crashes between statements, in any order: the database opens
every time, the tables and indexes of the catalog have their files and handles, and it opens once more to the same catalog. -/
theorem catalog_kept {name : Bytes} (hname : IsName name) {evs : List Event} (hevs : ∀ ev ∈ evs, ev.Parsed)
    (hlen : evs.length < 2 ^ 64) : ∃ s0 s, reopened (createDb name) = some s0 ∧ run step s0 evs = some s ∧ s.Consistent evs.length ∧
      ∃ s', reopened s.disk = some s' ∧ s'.Consistent evs.length ∧ s'.db = s.db := by
  obtain ⟨s0, hs0, hcons, -⟩ := created_consistent hname
  obtain ⟨s, hs, h⟩ := run_consistent evs 0 s0 hcons (by omega) hevs
  rw [Nat.zero_add] at h
  exact ⟨s0, s, hs0, hs, h, h.reopened hlen⟩

/-- `CREATE TABLE t (a INT)` -/
def createT : Ddl := .createTable [116] [⟨[97], .int, 4⟩]

theorem createT_parsed : createT.Parsed := ⟨by decide +kernel, by decide +kernel, by decide +kernel⟩

theorem isName_d : IsName [100] := by decide +kernel

/-- The table `t`, `CREATE INDEX t (a)` and a crash. -/
theorem catalog_kept_crash : ∃ s0 s, reopened (createDb [100]) = some s0 ∧
    run step s0 [.run createT, .run (.createIndex [116] [[97]] true), .crash] = some s ∧
      s.Consistent 3 ∧ ∃ s', reopened s.disk = some s' ∧ s'.Consistent 3 ∧ s'.db = s.db := by
  refine catalog_kept isName_d ?_ (by decide)
  refine List.forall_mem_cons.2 ⟨createT_parsed, List.forall_mem_cons.2 ⟨?_, List.forall_mem_singleton.2 trivial⟩⟩
  show [[97]].length < 2 ^ 31
  decide

/-! ## Crashes inside a statement -/

/-- Wherever a `CREATE` is cut off, the database opens with the old catalog or the new one, unless db.meta has only a part of
the new one. -/
theorem create_crash {name : Bytes} {evs : List Event} (h : Reached name evs s) {stmt : Ddl} (hstmt : stmt.Parsed)
    (hcreate : stmt.dropped = none) :
    ∀ d ∈ (exec stmt s).2.passed, d.Torn (exec stmt s).2.db ∨ ∃ s', reopened d = some s' ∧ s'.Consistent (evs.length + 1) ∧
      s'.disk = d ∧ (s'.db = s.db ∨ s'.db = (exec stmt s).2.db) := by
  have hcons := h.consistent
  have hcreated : Created evs.length { s with passed := [s.disk] } (exec stmt s).2 := by
    unfold exec
    cases stmt with
    | createTable tabName colDefs =>
        obtain ⟨r, s', hrun, hc⟩ := createTable_created hcons.begin hstmt
        rw [Ddl.run, hrun]
        exact hc
    | createIndex tabName colNames filled =>
        obtain ⟨r, s', hrun, hc⟩ := createIndex_created hcons.begin hstmt
        rw [Ddl.run, hrun]
        exact hc
    | dropTable _ => cases hcreate
    | dropIndex _ _ => cases hcreate
  obtain ⟨ds, hpassed, hds⟩ := hcreated.passed
  intro d hd
  rw [hpassed] at hd
  have hcase : d.Torn (exec stmt s).2.db ∨ d.Whole (evs.length + 1) fun db => db = s.db ∨ db = (exec stmt s).2.db := by
    rcases List.mem_append.1 hd with hd | hd
    · rw [List.mem_singleton.1 hd]
      exact .inr ((hcons.mono (Nat.le_succ _)).whole (.inl rfl) (.refl _))
    · exact hds d hd
  refine hcase.imp_right fun hwhole => ?_
  obtain ⟨s', hs', hcons', hdb, hdisk⟩ := reopened_whole hwhole h.length
  exact ⟨s', hs', hcons', hdisk, hdb⟩

theorem create_crash_first : ∃ s, Reached [100] [] s ∧ ∀ d ∈ (exec createT s).2.passed, d.Torn (exec createT s).2.db ∨
    ∃ s', reopened d = some s' ∧ s'.Consistent 1 ∧ s'.disk = d ∧
      (s'.db = s.db ∨ s'.db = (exec createT s).2.db) := by
  obtain ⟨s0, hs0, -⟩ := created_consistent isName_d
  have hreached : Reached [100] [] s0 := ⟨isName_d, fun _ h => absurd h List.not_mem_nil, by decide, s0, hs0, rfl⟩
  exact ⟨s0, hreached, create_crash hreached createT_parsed rfl⟩

/-- Wherever a `DROP` is cut off, db.meta has only a part of a catalog, or the database opens and has lost nothing but indexes of
the table or the table, or a file in db.meta is gone and the database does not open; and every `DROP` that succeeds passes
through a disk of the last kind. -/
theorem drop_crash {name : Bytes} {evs : List Event} (h : Reached name evs s) {stmt : Ddl} {t : Bytes} (hdrop : stmt.dropped = some t) :
    (∀ d ∈ (exec stmt s).2.passed, (∃ db, Within t db s.db ∧ d.Torn db) ∨
      (∃ s', reopened d = some s' ∧ s'.Consistent evs.length ∧ s'.disk = d ∧ Within t s'.db s.db) ∨
        ∃ p, p ∉ d.files ∧ (reopen d).1 = .error (.fileNotFound p)) ∧
      ((exec stmt s).1 = .ok () → ∃ d ∈ (exec stmt s).2.passed, ∃ p, p ∉ d.files ∧ (reopen d).1 = .error (.fileNotFound p)) := by
  have hcons := h.consistent
  have hn : evs.length < 2 ^ 64 := (Nat.lt_succ_self _).trans h.length
  have hcases : (∃ e, exec stmt s = (.error e, { s with passed := [s.disk] })) ∨ ∃ s' ds, exec stmt s = (.ok (), s') ∧
      Dropped evs.length t { s with passed := [s.disk] } s' ds ∧ ∃ d ∈ ds, d.Missing evs.length := by
    unfold exec
    cases stmt with
    | createTable _ _ => cases hdrop
    | createIndex _ _ _ => cases hdrop
    | dropTable _ =>
        obtain rfl := Option.some.inj hdrop
        exact dropTable_cases hcons.begin
    | dropIndex _ colNames =>
        obtain rfl := Option.some.inj hdrop
        exact dropIndex_cases colNames hcons.begin
  have hopens : ∀ d : Disk,
      (∃ db, Within t db s.db ∧ d.Torn db) ∨ d.Whole evs.length (fun db => Within t db s.db) ∨ d.Missing evs.length →
      (∃ db, Within t db s.db ∧ d.Torn db) ∨ (∃ s', reopened d = some s' ∧ s'.Consistent evs.length ∧ s'.disk = d ∧ Within t s'.db s.db) ∨
        ∃ p, p ∉ d.files ∧ (reopen d).1 = .error (.fileNotFound p) := by
    rintro d (htorn | hwhole | hmissing)
    · exact .inl htorn
    · obtain ⟨s', hs', hcons', hwithin, hdisk⟩ := reopened_whole hwhole hn
      exact .inr (.inl ⟨s', hs', hcons', hdisk, hwithin⟩)
    · exact .inr (.inr (reopen_missing_file hmissing hn))
  have hfirst : s.disk.Whole evs.length fun db => Within t db s.db := hcons.whole (.refl _ _) (.refl _)
  rcases hcases with ⟨e, he⟩ | ⟨s', ds, hok, hdropped, d, hd, hmissing⟩
  · rw [he]
    refine ⟨fun d hd => ?_, fun hok => nomatch hok⟩
    rw [List.mem_singleton.1 hd]
    exact hopens _ (.inr (.inl hfirst))
  · rw [hok]
    have hpassed := hdropped.passed
    refine ⟨fun d hd => hopens d ?_, fun _ => ⟨d, ?_, reopen_missing_file hmissing hn⟩⟩
    · rw [hpassed] at hd
      rcases List.mem_append.1 hd with hd | hd
      · rw [List.mem_singleton.1 hd]
        exact .inr (.inl hfirst)
      · exact hdropped.survives d hd
    · rw [hpassed]
      exact List.mem_append_right _ hd

theorem drop_crash_table : ∃ s, Reached [100] [.run createT] s ∧
    (∀ d ∈ (exec (.dropTable [116]) s).2.passed, (∃ db, Within [116] db s.db ∧ d.Torn db) ∨
      (∃ s', reopened d = some s' ∧ s'.Consistent 1 ∧ s'.disk = d ∧ Within [116] s'.db s.db) ∨
        ∃ p, p ∉ d.files ∧ (reopen d).1 = .error (.fileNotFound p)) ∧
      ((exec (.dropTable [116]) s).1 = .ok () →
        ∃ d ∈ (exec (.dropTable [116]) s).2.passed, ∃ p, p ∉ d.files ∧ (reopen d).1 = .error (.fileNotFound p)) := by
  have hparsed : ∀ ev ∈ [Event.run createT], ev.Parsed :=
    List.forall_mem_singleton.2 createT_parsed
  obtain ⟨s0, hs0, hcons, -⟩ := created_consistent isName_d
  obtain ⟨s, hs, -⟩ := run_consistent _ 0 s0 hcons (by decide) hparsed
  have hreached : Reached [100] _ s := ⟨isName_d, hparsed, by decide, s0, hs0, hs⟩
  exact ⟨s, hreached, drop_crash hreached rfl⟩

end SmManager

end Rmdb.Catalog
