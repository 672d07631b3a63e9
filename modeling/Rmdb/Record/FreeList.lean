import Mathlib
import Rmdb.Record.SlotMap

/-!
# The free pages of a heap file

`FreeChain h pageNo l`: following `next_free_page_no` from `pageNo` visits the pages `l` and
comes to an end.  A page that fills up is taken off by setting the head to its successor, which
is right when the page is the head (`Careful`); then the list has exactly the pages with fewer
records than slots (`FreeInv`).
-/

namespace Rmdb.Record

open Rmdb.Index (Rid)
open Rmdb.Txn (Bytes)
open Rmdb.Lib

namespace RmFileHandle

inductive FreeChain (h : RmFileHandle) : Int → List Int → Prop where
  | nil : FreeChain h rmNoPage []
  | cons {pageNo : Int} {l : List Int} : pageNo ≠ rmNoPage →
      FreeChain h (h.pages pageNo).nextFreePageNo l → FreeChain h pageNo (pageNo :: l)

/-- Complete and acyclic: no page is visited twice, and every page with a slot that is neither set
nor reserved is visited or cached. -/
def FreeListOk (h : RmFileHandle) : Prop :=
  ∃ l, h.FreeChain h.fileHdr.firstFreePageNo l ∧ l.Nodup ∧
    ∀ rid, IsSlot h.fileHdr rid → h.Free rid → rid.pageNo ∈ l ∨ rid.pageNo = h.cachedInsertPageNo

/-- The slot of `insert_record(rid, buf)` is a free one. -/
def InsertsFree (h : RmFileHandle) : RmOp × RmRes → Prop
  | (.insertAt rid _, _) => IsSlot h.fileHdr rid ∧ h.isSet rid = false
  | _ => True

/-- If one more record fills the page, the page is the head of the free pages. -/
def FillsHead (h : RmFileHandle) (pageNo : Int) : Prop :=
  (h.pages pageNo).numRecords + 1 = h.fileHdr.numRecordsPerPage → h.fileHdr.firstFreePageNo = pageNo

/-- A page that the step fills is the head of the free pages, and a published slot is clear. -/
def Careful (h : RmFileHandle) : RmOp × RmRes → Prop
  | (.insert _, _) =>
      (∃ s < h.fileHdr.numRecordsPerPage, h.Free ⟨h.cachedInsertPageNo, (s : Nat)⟩) →
        h.FillsHead h.cachedInsertPageNo
  | (.publish rid _, _) => ridKey rid ∈ h.reservedInserts → h.isSet rid = false ∧ h.FillsHead rid.pageNo
  | (.insertAt rid _, _) => h.FillsHead rid.pageNo
  | _ => True

instance (h : RmFileHandle) (pageNo : Int) : Decidable (h.FillsHead pageNo) := inferInstanceAs (Decidable (_ → _))

instance (h : RmFileHandle) : (ev : RmOp × RmRes) → Decidable (h.InsertsFree ev)
  | (.insertAt rid _, _) => inferInstanceAs (Decidable (IsSlot h.fileHdr rid ∧ h.isSet rid = false))
  | (.insert _, _) => isTrue trivial
  | (.reserve, _) => isTrue trivial
  | (.publish _ _, _) => isTrue trivial
  | (.cancel _, _) => isTrue trivial
  | (.delete _, _) => isTrue trivial
  | (.update _ _, _) => isTrue trivial

instance (h : RmFileHandle) : (ev : RmOp × RmRes) → Decidable (h.Careful ev)
  | (.insert _, _) =>
      inferInstanceAs (Decidable ((∃ s < h.fileHdr.numRecordsPerPage, h.Free ⟨h.cachedInsertPageNo, (s : Nat)⟩) →
        h.FillsHead h.cachedInsertPageNo))
  | (.publish rid _, _) =>
      inferInstanceAs (Decidable (ridKey rid ∈ h.reservedInserts → h.isSet rid = false ∧ h.FillsHead rid.pageNo))
  | (.insertAt rid _, _) => inferInstanceAs (Decidable (h.FillsHead rid.pageNo))
  | (.reserve, _) => isTrue trivial
  | (.cancel _, _) => isTrue trivial
  | (.delete _, _) => isTrue trivial
  | (.update _ _, _) => isTrue trivial

/-! ## The chain -/

variable {h : RmFileHandle}

theorem FreeChain.tail {pageNo : Int} {l : List Int} (hchain : h.FreeChain pageNo l) (hne : pageNo ≠ rmNoPage) :
    ∃ l', l = pageNo :: l' ∧ h.FreeChain (h.pages pageNo).nextFreePageNo l' := by
  cases hchain with
  | nil => exact absurd rfl hne
  | cons _ hrest => exact ⟨_, rfl, hrest⟩

/-- A chain depends on the links of its own pages only. -/
theorem FreeChain.congr {h' : RmFileHandle} {pageNo : Int} {l : List Int} (hchain : h.FreeChain pageNo l) :
    (∀ p ∈ l, (h'.pages p).nextFreePageNo = (h.pages p).nextFreePageNo) → h'.FreeChain pageNo l := by
  induction hchain with
  | nil => exact fun _ => .nil
  | cons hne _ ih =>
      intro hlinks
      refine .cons hne ?_
      rw [hlinks _ List.mem_cons_self]
      exact ih fun p hp => hlinks p (List.mem_cons_of_mem _ hp)

/-- The free pages are exactly the pages with fewer records than slots. -/
structure FreeInv (h : RmFileHandle) : Prop where
  wf : Wf h
  chain : ∃ l, h.FreeChain h.fileHdr.firstFreePageNo l ∧ l.Nodup ∧
    ∀ p, p ∈ l ↔ rmFirstRecordPage ≤ p ∧ p < h.fileHdr.numPages ∧
      (h.pages p).numRecords < h.fileHdr.numRecordsPerPage

theorem Wf.numRecords_lt (hwf : Wf h) {rid : Rid} (hslot : IsSlot h.fileHdr rid) (hclear : h.isSet rid = false) :
    (h.pages rid.pageNo).numRecords < h.fileHdr.numRecordsPerPage := by
  rw [(hwf.page hslot).count]
  rcases (Bitmap.countSet_le h.fileHdr.numRecordsPerPage (h.pages rid.pageNo).bitmap).lt_or_eq with hlt | heq
  · exact_mod_cast hlt
  · have hset : h.isSet rid = true := Bitmap.isSet_of_full heq hslot.lt
    rw [hclear] at hset
    cases hset

theorem FreeInv.ok (hinv : FreeInv h) : h.FreeListOk := by
  obtain ⟨l, hchain, hnodup, hmem⟩ := hinv.chain
  refine ⟨l, hchain, hnodup, fun rid hslot hfree => ?_⟩
  left
  exact (hmem rid.pageNo).2 ⟨hslot.1, hslot.2.1, hinv.wf.numRecords_lt hslot hfree.1⟩

theorem freeInv_openFile {recordSize : Nat} {hdr : RmFileHdr} (h : createFile recordSize = .ok hdr) :
    FreeInv (openFile hdr) where
  wf := wf_openFile h
  chain := by
    unfold createFile at h
    by_cases hbad : recordSize < 1 ∨ rmMaxRecordSize < recordSize
    · rw [if_pos hbad] at h
      cases h
    · rw [if_neg hbad] at h
      cases h
      refine ⟨[], .nil, List.nodup_nil, fun p => ⟨fun hp => absurd hp List.not_mem_nil, fun hp => ?_⟩⟩
      exact absurd hp.2.1 (not_lt.2 hp.1)

/-! ## Steps -/

/-- Handles that agree on the pages, their number and the head. -/
theorem FreeInv.congr (hinv : FreeInv h) {h' : RmFileHandle} (hwf : Wf h') (hpages : h'.pages = h.pages)
    (hhdr : h'.fileHdr = h.fileHdr) : FreeInv h' where
  wf := hwf
  chain := by
    obtain ⟨l, hchain, hnodup, hmem⟩ := hinv.chain
    refine ⟨l, ?_, hnodup, ?_⟩
    · rw [hhdr]
      exact hchain.congr fun p _ => by rw [hpages]
    · rw [hpages, hhdr]
      exact hmem

/-- A page of the list that stays with fewer records than slots. -/
theorem FreeInv.setPage (hinv : FreeInv h) {pageNo : Int} {p : RmPage} (hwf : Wf (h.setPage pageNo p))
    (hlink : p.nextFreePageNo = (h.pages pageNo).nextFreePageNo)
    (hroom : p.numRecords < h.fileHdr.numRecordsPerPage ↔ (h.pages pageNo).numRecords < h.fileHdr.numRecordsPerPage) :
    FreeInv (h.setPage pageNo p) where
  wf := hwf
  chain := by
    obtain ⟨l, hchain, hnodup, hmem⟩ := hinv.chain
    have hat : ∀ q, ((h.setPage pageNo p).pages q).nextFreePageNo = (h.pages q).nextFreePageNo ∧
        (((h.setPage pageNo p).pages q).numRecords < h.fileHdr.numRecordsPerPage ↔
          (h.pages q).numRecords < h.fileHdr.numRecordsPerPage) := by
      intro q
      unfold RmFileHandle.setPage
      by_cases hq : q = pageNo
      · subst hq
        simp only [Function.update_self]
        exact ⟨hlink, hroom⟩
      · simp only [Function.update_of_ne hq]
        exact ⟨trivial, trivial⟩
    refine ⟨l, hchain.congr fun q _ => (hat q).1, hnodup, fun q => ?_⟩
    rw [hmem]
    show _ ↔ _ ∧ _ ∧ ((h.setPage pageNo p).pages q).numRecords < h.fileHdr.numRecordsPerPage
    rw [(hat q).2]
    exact Iff.rfl

/-- The head, which is full now, is taken off. -/
theorem FreeInv.pop (hinv : FreeInv h) {p : RmPage} (hne : h.fileHdr.firstFreePageNo ≠ rmNoPage)
    (hwf : Wf ((h.setPage h.fileHdr.firstFreePageNo p).setFirstFree (h.pages h.fileHdr.firstFreePageNo).nextFreePageNo))
    (hfull : p.numRecords = h.fileHdr.numRecordsPerPage) :
    FreeInv ((h.setPage h.fileHdr.firstFreePageNo p).setFirstFree
      (h.pages h.fileHdr.firstFreePageNo).nextFreePageNo) where
  wf := hwf
  chain := by
    obtain ⟨l, hchain, hnodup, hmem⟩ := hinv.chain
    obtain ⟨l', rfl, hrest⟩ := hchain.tail hne
    obtain ⟨hfresh, hnodup'⟩ := List.nodup_cons.1 hnodup
    refine ⟨l', ?_, hnodup', fun q => ?_⟩
    · refine hrest.congr fun q hq => ?_
      show (Function.update h.pages h.fileHdr.firstFreePageNo p q).nextFreePageNo = _
      have hne : q ≠ h.fileHdr.firstFreePageNo := by
        rintro rfl
        exact hfresh hq
      rw [Function.update_of_ne hne]
    · show q ∈ l' ↔ _ ∧ _ ∧ (Function.update h.pages h.fileHdr.firstFreePageNo p q).numRecords < _
      by_cases hq : q = h.fileHdr.firstFreePageNo
      · rw [hq, Function.update_self]
        refine ⟨fun hin => absurd hin hfresh, fun hin => ?_⟩
        exact absurd hin.2.2 (by rw [hfull]; exact lt_irrefl _)
      · rw [Function.update_of_ne hq]
        refine ⟨fun hin => (hmem q).1 (List.mem_cons_of_mem _ hin), fun hin => ?_⟩
        exact ((List.mem_cons.1 ((hmem q).2 hin)).resolve_left hq)

/-- Filling a clear slot. -/
theorem FreeInv.fillPage (hinv : FreeInv h) {rid : Rid} (hslot : IsSlot h.fileHdr rid) (hclear : h.isSet rid = false)
    (hhead : h.FillsHead rid.pageNo) {buf : Bytes} (hbuf : buf.length = h.fileHdr.recordSize) :
    FreeInv (h.fillPage rid.pageNo rid.slotNo.toNat buf) := by
  have hwf := (fillPage_spec hinv.wf hslot hclear hbuf).1
  have hlt := hinv.wf.numRecords_lt hslot hclear
  by_cases hfull : (h.pages rid.pageNo).numRecords + 1 = h.fileHdr.numRecordsPerPage
  · have hfirst := hhead hfull
    rw [fillPage_of_full hfull] at hwf ⊢
    rw [← hfirst] at hwf hfull ⊢
    refine hinv.pop ?_ hwf hfull
    rw [hfirst]
    have := hslot.1
    unfold rmFirstRecordPage at this
    unfold rmNoPage
    omega
  · rw [fillPage_of_not_full hfull] at hwf ⊢
    refine hinv.setPage hwf rfl ?_
    show (h.pages rid.pageNo).numRecords + 1 < _ ↔ _
    omega

theorem FreeInv.fillCached (hinv : FreeInv h) {rid : Rid} (hslot : IsSlot h.fileHdr rid)
    (hclear : h.isSet rid = false) (hcached : h.cachedInsertPageNo = rid.pageNo) (hhead : h.FillsHead rid.pageNo)
    {buf : Bytes} (hbuf : buf.length = h.fileHdr.recordSize) : FreeInv (h.fillCached rid.slotNo.toNat buf) := by
  have hfill := hinv.fillPage hslot hclear hhead hbuf
  have hwf := (fillCached_spec hinv.wf hslot hclear hcached hbuf).1
  rw [fillCached_eq, hcached] at hwf ⊢
  exact hfill.congr hwf rfl rfl

/-- A new page in front. -/
theorem FreeInv.openInsertPage (hinv : FreeInv h) : FreeInv h.openInsertPage where
  wf := wf_openInsertPage hinv.wf
  chain := by
    obtain ⟨l, hchain, hnodup, hmem⟩ := hinv.chain
    have hnew : h.fd2pageno = h.fileHdr.numPages := hinv.wf.fd2pageno
    have hpos := hinv.wf.numPages
    have hfresh : h.fd2pageno ∉ l := fun hin => by
      have := ((hmem _).1 hin).2.1
      omega
    refine ⟨h.fd2pageno :: l, .cons ?_ ?_, List.nodup_cons.2 ⟨hfresh, hnodup⟩, fun p => ?_⟩
    · show h.fd2pageno ≠ rmNoPage
      unfold rmFirstRecordPage at hpos
      unfold rmNoPage
      omega
    · show FreeChain _ (h.openInsertPage.pages h.fd2pageno).nextFreePageNo l
      rw [pages_openInsertPage, if_pos rfl]
      refine hchain.congr fun p hp => ?_
      have hne : p ≠ h.fd2pageno := by
        rintro rfl
        exact hfresh hp
      rw [pages_openInsertPage, if_neg hne]
    · rw [pages_openInsertPage, List.mem_cons]
      show _ ↔ rmFirstRecordPage ≤ p ∧ p < h.fileHdr.numPages + 1 ∧ _ < (h.fileHdr.numRecordsPerPage : Int)
      by_cases hp : p = h.fd2pageno
      · rw [if_pos hp]
        have hslots := hinv.wf.fits.slots_pos
        have hempty : (0 : Int) < h.fileHdr.numRecordsPerPage := Int.ofNat_lt.2 hslots
        exact ⟨fun _ => ⟨by omega, by omega, hempty⟩, fun _ => .inl hp⟩
      · rw [if_neg hp, hmem]
        constructor
        · rintro (heq | ⟨hlo, hhi, hroom⟩)
          · exact absurd heq hp
          · exact ⟨hlo, by omega, hroom⟩
        · rintro ⟨hlo, hhi, hroom⟩
          exact .inr ⟨hlo, by omega, hroom⟩

/-- The page that `ensure_insert_page_cached` leaves is the cached one with a free slot, or the head. -/
theorem FreeInv.ensure (hinv : FreeInv h) :
    ∃ h' s, h.ensureInsertPageCached = (h', .ok ()) ∧ h'.findFreeSlotOnCachedPage = some s ∧ FreeInv h' ∧
      IsSlot h'.fileHdr ⟨h'.cachedInsertPageNo, s⟩ ∧ h'.Free ⟨h'.cachedInsertPageNo, s⟩ ∧
      h'.fileHdr.recordSize = h.fileHdr.recordSize ∧ (h' = h ∨ h'.fileHdr.firstFreePageNo = h'.cachedInsertPageNo) := by
  obtain ⟨h', s, hensure, hs, hwf, hslot, hfree, -, -, hsize, -⟩ := ensure_spec hinv.wf
  obtain ⟨h'', hensure', -, hcases⟩ := ensure_cases hinv.wf
  obtain rfl : h'' = h' := congrArg Prod.fst (hensure'.symm.trans hensure)
  have hkept : FreeInv h'' ∧ (h'' = h ∨ h''.fileHdr.firstFreePageNo = h''.cachedInsertPageNo) := by
    obtain rfl | ⟨-, ⟨-, rfl⟩ | ⟨-, rfl⟩⟩ := hcases
    · exact ⟨hinv, .inl rfl⟩
    · exact ⟨hinv.congr hwf rfl rfl, .inr rfl⟩
    · exact ⟨hinv.openInsertPage, .inr rfl⟩
  exact ⟨h'', s, hensure, hs, hkept.1, hslot, hfree, hsize, hkept.2⟩

/-- A page that was full is put in front. -/
theorem FreeInv.deleteRecord (hinv : FreeInv h) {rid : Rid} (hslot : IsSlot h.fileHdr rid)
    (hset : h.isSet rid = true) : ∃ h', h.deleteRecord rid = (h', .ok ()) ∧ FreeInv h' := by
  obtain ⟨h', hdel, hwf, -⟩ := deleteRecord_spec hinv.wf hslot hset
  refine ⟨h', hdel, ?_⟩
  rw [deleteRecord_of_isSet hslot hset] at hdel
  obtain rfl := congrArg Prod.fst hdel
  simp only at hwf ⊢
  have hle : (h.pages rid.pageNo).numRecords ≤ h.fileHdr.numRecordsPerPage := by
    rw [(hinv.wf.page hslot).count]
    exact_mod_cast Bitmap.countSet_le _ _
  by_cases hfull : (h.pages rid.pageNo).numRecords = h.fileHdr.numRecordsPerPage
  · rw [if_pos hfull] at hwf ⊢
    refine ⟨hwf, ?_⟩
    obtain ⟨l, hchain, hnodup, hmem⟩ := hinv.chain
    have hfresh : rid.pageNo ∉ l := fun hin => by
      have := ((hmem _).1 hin).2.2
      omega
    have hpage : ∀ p, ((h.cleared rid).releasePageHandle rid.pageNo).pages p =
        if p = rid.pageNo then
          { (h.cleared rid).pages rid.pageNo with nextFreePageNo := h.fileHdr.firstFreePageNo }
        else h.pages p := by
      intro p
      show Function.update (Function.update h.pages rid.pageNo _) rid.pageNo _ p = _
      by_cases hp : p = rid.pageNo
      · rw [if_pos hp, hp, Function.update_self]
        rfl
      · rw [if_neg hp, Function.update_of_ne hp, Function.update_of_ne hp]
    have hcount : ((h.cleared rid).pages rid.pageNo).numRecords = (h.pages rid.pageNo).numRecords - 1 := by
      show (Function.update h.pages rid.pageNo _ rid.pageNo).numRecords = _
      rw [Function.update_self]
    refine ⟨rid.pageNo :: l, .cons ?_ ?_, List.nodup_cons.2 ⟨hfresh, hnodup⟩, fun p => ?_⟩
    · show rid.pageNo ≠ rmNoPage
      have := hslot.1
      unfold rmFirstRecordPage at this
      unfold rmNoPage
      omega
    · show FreeChain _ (((h.cleared rid).releasePageHandle rid.pageNo).pages rid.pageNo).nextFreePageNo l
      rw [hpage, if_pos rfl]
      refine hchain.congr fun p hp => ?_
      have hne : p ≠ rid.pageNo := by
        rintro rfl
        exact hfresh hp
      rw [hpage, if_neg hne]
    · rw [hpage, List.mem_cons]
      show _ ↔ rmFirstRecordPage ≤ p ∧ p < h.fileHdr.numPages ∧ _ < (h.fileHdr.numRecordsPerPage : Int)
      by_cases hp : p = rid.pageNo
      · rw [if_pos hp, hp]
        simp only [hcount]
        exact ⟨fun _ => ⟨hslot.1, hslot.2.1, by omega⟩, fun _ => .inl trivial⟩
      · rw [if_neg hp, hmem]
        exact ⟨fun hin => hin.resolve_left hp, .inr⟩
  · rw [if_neg hfull] at hwf ⊢
    refine hinv.setPage hwf rfl ?_
    show (h.pages rid.pageNo).numRecords - 1 < _ ↔ _
    omega

theorem FreeInv.updateRecord (hinv : FreeInv h) {rid : Rid} (hslot : IsSlot h.fileHdr rid) (hset : h.isSet rid = true)
    {buf : Bytes} (hbuf : buf.length = h.fileHdr.recordSize) :
    ∃ h', h.updateRecord rid buf = (h', .ok ()) ∧ FreeInv h' := by
  obtain ⟨h', hupd, hwf, -⟩ := updateRecord_spec hinv.wf hslot hset hbuf
  refine ⟨h', hupd, ?_⟩
  unfold isSet at hset
  unfold RmFileHandle.updateRecord at hupd
  rw [fetch_of_isSlot hslot] at hupd
  simp only [hset, Bool.not_true, Bool.false_eq_true, if_false] at hupd
  obtain rfl := congrArg Prod.fst hupd
  exact hinv.setPage hwf rfl Iff.rfl

/-- A record id that is no occupied slot is refused by `delete_record` and `update_record`. -/
theorem refused {rid : Rid} (hnum : SlotNumber h.fileHdr rid) (hout : ¬ (IsSlot h.fileHdr rid ∧ h.isSet rid = true))
    (buf : Bytes) : (∃ e, h.deleteRecord rid = (h, .error e)) ∧ ∃ e, h.updateRecord rid buf = (h, .error e) := by
  by_cases hslot : IsSlot h.fileHdr rid
  · have hclear : h.isSet rid = false := Bool.eq_false_of_not_eq_true fun hset => hout ⟨hslot, hset⟩
    exact ⟨⟨_, deleteRecord_of_clear hslot hclear⟩, _, updateRecord_of_clear hslot hclear buf⟩
  · have hfetch := fetch_of_page hnum.1 hnum.2.1 hnum.2.2 hslot
    refine ⟨⟨.pageNotExist rid.pageNo, ?_⟩, .pageNotExist rid.pageNo, ?_⟩
    · unfold RmFileHandle.deleteRecord
      rw [hfetch]
    · unfold RmFileHandle.updateRecord
      rw [hfetch]

theorem FreeInv.erase (hinv : FreeInv h) (key : Int) :
    FreeInv { h with reservedInserts := h.reservedInserts.erase key } :=
  hinv.congr (hinv.wf.setReserved fun k hk => hinv.wf.reserved k (Finset.mem_of_mem_erase hk)) rfl rfl

theorem FreeInv.publishInsertSlot (hinv : FreeInv h) {rid : Rid} (hint : IntSlot rid) {buf : Bytes}
    (hbuf : buf.length = h.fileHdr.recordSize)
    (hcareful : ridKey rid ∈ h.reservedInserts → h.isSet rid = false ∧ h.FillsHead rid.pageNo) :
    FreeInv (h.publishInsertSlot rid buf).1 := by
  unfold RmFileHandle.publishInsertSlot
  by_cases hkey : ridKey rid ∈ h.reservedInserts
  · obtain ⟨hclear, hhead⟩ := hcareful hkey
    obtain ⟨r, hslot, heq⟩ := hinv.wf.reserved _ hkey
    obtain rfl : r = rid := hslot.key_inj hinv.wf.fits hint heq
    have hinv' := hinv.erase (ridKey r)
    rw [if_neg (not_not.2 hkey)]
    simp only []
    by_cases hcached : h.cachedInsertPageNo = r.pageNo ∧ 0 ≤ h.cachedInsertPageNo
    · rw [if_pos hcached]
      exact hinv'.fillCached hslot hclear hcached.1 hhead hbuf
    · rw [if_neg hcached, fetch_of_isSlot (h := { h with reservedInserts := h.reservedInserts.erase (ridKey r) }) hslot]
      exact hinv'.fillPage hslot hclear hhead hbuf
  · rw [if_pos hkey]
    exact hinv

/-- One step. -/
theorem FreeInv.step (hinv : FreeInv h) {ev : RmOp × RmRes} (hcond : h.InsertsFree ev ∧ h.Careful ev)
    {h' : RmFileHandle} (hstep : h.step ev = some h') : FreeInv h' := by
  obtain ⟨hproper, hcall⟩ := step_some hstep
  obtain ⟨hfreeAt, hcareful⟩ := hcond
  obtain ⟨op, res⟩ := ev
  simp only at hproper hcall
  obtain rfl : (h.call op).1 = h' := by rw [hcall]
  cases op with
  | insert buf =>
      obtain ⟨h1, s, hensure, hs, hinv1, hslot, hfree, hsize, hwhere⟩ := hinv.ensure
      have hop : (h.insertRecord buf).1 = h1.fillCached s buf := by
        unfold RmFileHandle.insertRecord
        simp only [hensure, hs]
      have hhead : h1.FillsHead h1.cachedInsertPageNo := by
        obtain rfl | hfirst := hwhere
        · exact hcareful ⟨s, (findFree_some hs).2.1, hfree⟩
        · exact fun _ => hfirst
      show FreeInv (h.insertRecord buf).1
      rw [hop]
      exact hinv1.fillCached hslot hfree.1 rfl hhead (hproper.trans hsize.symm)
  | reserve =>
      obtain ⟨h1, s, hensure, hs, hinv1, hslot, -⟩ := hinv.ensure
      have hop : h.reserveInsertSlot.1 =
          { h1 with reservedInserts := insert (ridKey ⟨h1.cachedInsertPageNo, s⟩) h1.reservedInserts } := by
        unfold RmFileHandle.reserveInsertSlot
        simp only [hensure, hs]
      show FreeInv h.reserveInsertSlot.1
      rw [hop]
      refine hinv1.congr (hinv1.wf.setReserved fun key hkey => ?_) rfl rfl
      rcases Finset.mem_insert.1 hkey with rfl | hkey
      · exact ⟨_, hslot, rfl⟩
      · exact hinv1.wf.reserved key hkey
  | publish rid buf => exact hinv.publishInsertSlot hproper.1 hproper.2 hcareful
  | cancel rid => exact hinv.erase (ridKey rid)
  | delete rid =>
      show FreeInv (h.deleteRecord rid).1
      by_cases hocc : IsSlot h.fileHdr rid ∧ h.isSet rid = true
      · obtain ⟨h1, hdel, hinv1⟩ := hinv.deleteRecord hocc.1 hocc.2
        rw [hdel]
        exact hinv1
      · obtain ⟨⟨e, hdel⟩, -⟩ := refused hproper hocc []
        rw [hdel]
        exact hinv
  | update rid buf =>
      show FreeInv (h.updateRecord rid buf).1
      by_cases hocc : IsSlot h.fileHdr rid ∧ h.isSet rid = true
      · obtain ⟨h1, hupd, hinv1⟩ := hinv.updateRecord hocc.1 hocc.2 hproper.2
        rw [hupd]
        exact hinv1
      · obtain ⟨-, e, hupd⟩ := refused hproper.1 hocc buf
        rw [hupd]
        exact hinv
  | insertAt rid buf =>
      have hop : (h.insertRecordAt rid buf).1 = h.fillPage rid.pageNo rid.slotNo.toNat buf := by
        unfold RmFileHandle.insertRecordAt
        rw [fetch_of_isSlot hfreeAt.1]
      show FreeInv (h.insertRecordAt rid buf).1
      rw [hop]
      exact hinv.fillPage hfreeAt.1 hfreeAt.2 hcareful hproper.2

end RmFileHandle

/-! ## Runs -/

/-- Along every run whose steps fill the head of the free pages only, the list is complete and acyclic. -/
theorem freeListOk_of_careful {recordSize : Nat} {hdr : RmFileHdr} (hfile : createFile recordSize = .ok hdr)
    {evs : List (RmOp × RmRes)} {h : RmFileHandle} (hrun : run RmFileHandle.step (openFile hdr) evs = some h)
    (hcond : Along RmFileHandle.step (fun s ev => s.InsertsFree ev ∧ s.Careful ev) (openFile hdr) evs) :
    h.FreeListOk := by
  have hstep : ∀ (s : RmFileHandle) ev s', s.FreeInv → s.InsertsFree ev ∧ s.Careful ev → s.step ev = some s' →
      s'.FreeInv := fun _ _ _ hinv hc hs => hinv.step hc hs
  exact (run_invariant_along hstep evs _ h (RmFileHandle.freeInv_openFile hfile) hcond hrun).ok

/-- The records `lo ≤ s < 7` of a page are inserted. -/
def fillFrom (pageNo : Int) (lo : Nat) : List (RmOp × RmRes) :=
  (List.range' lo (7 - lo)).map fun s => (.insert wideRow, .given ⟨pageNo, s⟩)

/-- A full page, taken off as the head and put back by a delete. -/
def refillEvents : List (RmOp × RmRes) :=
  fillFrom 1 0 ++ [(.delete ⟨1, 3⟩, .done), (.reserve, .given ⟨1, 3⟩), (.publish ⟨1, 3⟩ wideRow, .done)]

theorem refillEvents_run : (run RmFileHandle.step (openFile wideHdr) refillEvents).isSome := by decide +kernel

theorem refillEvents_careful :
    Along RmFileHandle.step (fun s ev => s.InsertsFree ev ∧ s.Careful ev) (openFile wideHdr) refillEvents := by
  decide +kernel

theorem freeListOk_of_careful_refill :
    ∃ h, run RmFileHandle.step (openFile wideHdr) refillEvents = some h ∧ h.FreeListOk := by
  obtain ⟨h, hrun⟩ := Option.isSome_iff_exists.1 refillEvents_run
  exact ⟨h, hrun, @freeListOk_of_careful 512 wideHdr rfl _ h hrun refillEvents_careful⟩

/-- Page 1 is full, page 2 is the insert page; a delete puts page 1 in front, and then page 2 fills up. -/
def lostEvents : List (RmOp × RmRes) :=
  fillFrom 1 0 ++ [(.insert wideRow, .given ⟨2, 0⟩), (.delete ⟨1, 0⟩, .done)] ++ fillFrom 2 1

theorem lostEvents_end :
    (run RmFileHandle.step (openFile wideHdr) lostEvents).map (fun h =>
      (h.fileHdr.firstFreePageNo, h.cachedInsertPageNo, decide (IsSlot h.fileHdr ⟨1, 0⟩), decide (h.Free ⟨1, 0⟩))) =
      some (-1, -1, true, true) := by decide +kernel

theorem lostEvents_free : Along RmFileHandle.step RmFileHandle.InsertsFree (openFile wideHdr) lostEvents := by
  decide +kernel

/-- Page 1 has a free slot and is neither on the list nor cached. -/
theorem not_freeListOk_lost :
    ∃ h, createFile 512 = .ok wideHdr ∧ run RmFileHandle.step (openFile wideHdr) lostEvents = some h ∧
      Along RmFileHandle.step RmFileHandle.InsertsFree (openFile wideHdr) lostEvents ∧ ¬ h.FreeListOk := by
  obtain ⟨h, hrun, hend⟩ := Option.map_eq_some_iff.1 lostEvents_end
  simp only [Prod.mk.injEq, decide_eq_true_eq] at hend
  obtain ⟨hfirst, hcached, hslot, hfree⟩ := hend
  refine ⟨h, rfl, hrun, lostEvents_free, ?_⟩
  rintro ⟨l, hchain, -, hall⟩
  rw [hfirst] at hchain
  rcases hall _ hslot hfree with hin | heq
  · cases hchain with
    | nil => exact absurd hin List.not_mem_nil
    | cons hne _ => exact hne rfl
  · rw [hcached] at heq
    exact absurd heq (by decide)

end Rmdb.Record
