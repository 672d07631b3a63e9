import Mathlib
import Rmdb.Record.Ops

/-!
# The heap file as a slot map

A slot map has the bytes of every occupied slot and the set of reserved ones.  `SlotMap.Step`
is what an operation may do and answer; the heap file refines it (`heap_refines_slotMap`), and
its counters, its reads and its scan agree with the map (`Agrees`).
-/

namespace Rmdb.Record

open Rmdb.Index (Rid)
open Rmdb.Txn (Bytes)
open Rmdb.Lib

/-! ## The slot map -/

structure SlotMap where
  data : Rid → Option Bytes
  reserved : Set Rid

namespace SlotMap

def empty : SlotMap := { data := fun _ => none, reserved := ∅ }

def put (m : SlotMap) (rid : Rid) (v : Option Bytes) : SlotMap := { m with data := Function.update m.data rid v }

/-- A slot that may be handed out. -/
def Vacant (m : SlotMap) (rid : Rid) : Prop := m.data rid = none ∧ rid ∉ m.reserved

inductive Step : SlotMap → RmOp × RmRes → SlotMap → Prop where
  | insert {m : SlotMap} {rid : Rid} (buf : Bytes) :
      m.Vacant rid → Step m (.insert buf, .given rid) (m.put rid (some buf))
  | reserve {m : SlotMap} {rid : Rid} :
      m.Vacant rid → Step m (.reserve, .given rid) { m with reserved := Insert.insert rid m.reserved }
  | publish {m : SlotMap} {rid : Rid} (buf : Bytes) :
      rid ∈ m.reserved →
      Step m (.publish rid buf, .done) { m.put rid (some buf) with reserved := m.reserved \ {rid} }
  | publishRefused {m : SlotMap} {rid : Rid} (buf : Bytes) (e : RmError) :
      rid ∉ m.reserved → Step m (.publish rid buf, .err e) m
  | cancel (m : SlotMap) (rid : Rid) : Step m (.cancel rid, .done) { m with reserved := m.reserved \ {rid} }
  | delete {m : SlotMap} {rid : Rid} : m.data rid ≠ none → Step m (.delete rid, .done) (m.put rid none)
  | deleteRefused {m : SlotMap} {rid : Rid} (e : RmError) : m.data rid = none → Step m (.delete rid, .err e) m
  | update {m : SlotMap} {rid : Rid} (buf : Bytes) :
      m.data rid ≠ none → Step m (.update rid buf, .done) (m.put rid (some buf))
  | updateRefused {m : SlotMap} {rid : Rid} (buf : Bytes) (e : RmError) :
      m.data rid = none → Step m (.update rid buf, .err e) m
  | insertAt {m : SlotMap} {rid : Rid} (buf : Bytes) :
      m.Vacant rid → Step m (.insertAt rid buf, .done) (m.put rid (some buf))

end SlotMap

/-! ## Page and slot order -/

def Before (a b : Rid) : Prop := a.pageNo < b.pageNo ∨ a.pageNo = b.pageNo ∧ a.slotNo < b.slotNo

theorem Before.trans {a b c : Rid} (hab : Before a b) (hbc : Before b c) : Before a c := by
  unfold Before at *
  omega

/-- What the handle answers is what the map has. -/
structure Agrees (h : RmFileHandle) (m : SlotMap) : Prop where
  count : ∀ pageNo, rmFirstRecordPage ≤ pageNo → pageNo < h.fileHdr.numPages →
    (h.pages pageNo).numRecords = Bitmap.countSet h.fileHdr.numRecordsPerPage (h.pages pageNo).bitmap
  occupied : ∀ rid, m.data rid ≠ none ↔ IsSlot h.fileHdr rid ∧ h.isSet rid = true
  getSet : ∀ rid b, m.data rid = some b → h.getRecord rid = .ok b
  getClear : ∀ rid, RmFileHandle.SlotNumber h.fileHdr rid → m.data rid = none → ∃ e, h.getRecord rid = .error e
  scan : ∃ fuel l, RmScan.rids h fuel = some (.ok l) ∧ l.Pairwise Before ∧ ∀ rid, rid ∈ l ↔ m.data rid ≠ none

/-! ## Refinement -/

namespace RmFileHandle

/-- The slot of `insert_record(rid, buf)` is a free, unreserved slot of an existing page. -/
def InsertsVacant (h : RmFileHandle) : RmOp × RmRes → Prop
  | (.insertAt rid _, _) => IsSlot h.fileHdr rid ∧ h.Free rid
  | _ => True

instance (h : RmFileHandle) : (ev : RmOp × RmRes) → Decidable (h.InsertsVacant ev)
  | (.insertAt rid _, _) => inferInstanceAs (Decidable (IsSlot h.fileHdr rid ∧ h.Free rid))
  | (.insert _, _) => isTrue trivial
  | (.reserve, _) => isTrue trivial
  | (.publish _ _, _) => isTrue trivial
  | (.cancel _, _) => isTrue trivial
  | (.delete _, _) => isTrue trivial
  | (.update _ _, _) => isTrue trivial

structure Rep (h : RmFileHandle) (m : SlotMap) : Prop where
  wf : Wf h
  data : ∀ rid, m.data rid = h.record rid
  reserved : ∀ rid, rid ∈ m.reserved ↔ IsSlot h.fileHdr rid ∧ ridKey rid ∈ h.reservedInserts
  clear : ∀ rid ∈ m.reserved, m.data rid = none

variable {h : RmFileHandle} {m : SlotMap}

theorem rep_openFile {recordSize : Nat} {hdr : RmFileHdr} (h : createFile recordSize = .ok hdr) :
    Rep (openFile hdr) SlotMap.empty where
  wf := wf_openFile h
  data := fun rid => (record_openFile hdr rid).symm
  reserved := fun _ => ⟨fun hin => hin.elim, fun hin => absurd hin.2 (Finset.notMem_empty _)⟩
  clear := fun _ hin => hin.elim

theorem Rep.isSet_iff (hrep : Rep h m) {rid : Rid} : m.data rid ≠ none ↔ IsSlot h.fileHdr rid ∧ h.isSet rid = true := by
  rw [hrep.data, record]
  by_cases hand : IsSlot h.fileHdr rid ∧ h.isSet rid = true
  · rw [if_pos hand]
    exact ⟨fun _ => hand, fun _ => Option.some_ne_none _⟩
  · rw [if_neg hand]
    exact ⟨fun hne => absurd rfl hne, fun hand' => absurd hand' hand⟩

theorem Rep.data_none (hrep : Rep h m) {rid : Rid} (hclear : h.isSet rid = false) : m.data rid = none :=
  (hrep.data rid).trans (record_of_clear hclear)

theorem Rep.vacant (hrep : Rep h m) {rid : Rid} (hfree : h.Free rid) : m.Vacant rid :=
  ⟨hrep.data_none hfree.1, fun hin => hfree.2 ((hrep.reserved rid).1 hin).2⟩

theorem Rep.isSet_reserved (hrep : Rep h m) {rid : Rid} (hin : rid ∈ m.reserved) : h.isSet rid = false := by
  by_contra hset
  exact hrep.isSet_iff.2 ⟨((hrep.reserved rid).1 hin).1, Bool.eq_true_of_not_eq_false hset⟩ (hrep.clear rid hin)

/-- A record that is written to a slot which is not reserved, or taken from one. -/
theorem Rep.put (hrep : Rep h m) {h' : RmFileHandle} (hwf : Wf h') {rid : Rid} {v : Option Bytes}
    (hrecord : ∀ r, h'.record r = if r = rid then v else h.record r)
    (hreserved : h'.reservedInserts = h.reservedInserts) (hpages : h'.fileHdr.numPages = h.fileHdr.numPages)
    (hslots : h'.fileHdr.numRecordsPerPage = h.fileHdr.numRecordsPerPage) (hout : v ≠ none → rid ∉ m.reserved) :
    Rep h' (m.put rid v) where
  wf := hwf
  data := by
    intro r
    show Function.update m.data rid v r = _
    rw [hrecord, Function.update_apply, hrep.data]
  reserved := by
    intro r
    rw [SlotMap.put, hreserved, IsSlot, hpages, hslots]
    exact hrep.reserved r
  clear := by
    intro r hr
    show Function.update m.data rid v r = none
    by_cases heq : r = rid
    · subst heq
      rw [Function.update_self]
      by_contra hv
      exact hout hv hr
    · rw [Function.update_of_ne heq]
      exact hrep.clear r hr

/-- Taking a reservation back. -/
theorem Rep.erase (hrep : Rep h m) {rid : Rid} (hint : IntSlot rid) :
    Rep { h with reservedInserts := h.reservedInserts.erase (ridKey rid) }
      { m with reserved := m.reserved \ {rid} } where
  wf := hrep.wf.setReserved fun key hkey => hrep.wf.reserved key (Finset.mem_of_mem_erase hkey)
  data := hrep.data
  reserved := by
    intro r
    show r ∈ m.reserved \ {rid} ↔ IsSlot h.fileHdr r ∧ ridKey r ∈ h.reservedInserts.erase (ridKey rid)
    rw [Set.mem_sdiff, Set.mem_singleton_iff, hrep.reserved, Finset.mem_erase]
    constructor
    · rintro ⟨⟨hslot, hkey⟩, hne⟩
      exact ⟨hslot, fun heq => hne (hslot.key_inj hrep.wf.fits hint heq), hkey⟩
    · rintro ⟨hslot, hne, hkey⟩
      exact ⟨⟨hslot, hkey⟩, fun heq => hne (by rw [heq])⟩
  clear := fun r hr => hrep.clear r hr.1

/-- `ensure_insert_page_cached` is no step of the map. -/
theorem Rep.ensure (hrep : Rep h m) :
    ∃ h' s, h.ensureInsertPageCached = (h', .ok ()) ∧ h'.findFreeSlotOnCachedPage = some s ∧ Rep h' m ∧
      IsSlot h'.fileHdr ⟨h'.cachedInsertPageNo, s⟩ ∧ h'.Free ⟨h'.cachedInsertPageNo, s⟩ ∧
      h'.fileHdr.recordSize = h.fileHdr.recordSize := by
  obtain ⟨h', s, hensure, hs, hwf, hslot, hfree, hrecord, hreserved, hsize, hslots, hgrow⟩ := ensure_spec hrep.wf
  refine ⟨h', s, hensure, hs, ⟨hwf, fun r => ?_, fun r => ?_, hrep.clear⟩, hslot, hfree, hsize⟩
  · rw [hrep.data, hrecord]
  · rw [hrep.reserved, hreserved]
    constructor
    · rintro ⟨hin, hkey⟩
      exact ⟨⟨hin.1, hin.2.1.trans_le hgrow, hin.2.2.1, by rw [hslots]; exact hin.2.2.2⟩, hkey⟩
    · rintro ⟨hin, hkey⟩
      -- a reserved key is that of a slot of the file as it was
      obtain ⟨r', hslot', hkey'⟩ := hrep.wf.reserved _ hkey
      have hlt := hwf.fits.slots_lt
      have heq := hslot'.key_inj hrep.wf.fits ⟨by have := hin.2.2.1; omega, by have := hin.2.2.2; omega⟩ hkey'
      rw [← heq]
      exact ⟨hslot', by rw [hkey']; exact hkey⟩

theorem natCast_toNat_slot (pageNo : Int) (s : Nat) : (Rid.mk pageNo s).slotNo.toNat = s := Int.toNat_natCast s

theorem Rep.insertRecord (hrep : Rep h m) {buf : Bytes} (hbuf : buf.length = h.fileHdr.recordSize) :
    ∃ h' rid, h.insertRecord buf = (h', .ok rid) ∧ m.Vacant rid ∧ Rep h' (m.put rid (some buf)) := by
  obtain ⟨h1, s, hensure, hs, hrep1, hslot, hfree, hsize⟩ := hrep.ensure
  obtain ⟨hwf, hrecord⟩ := fillCached_spec hrep1.wf hslot hfree.1 rfl (hbuf.trans hsize.symm)
  rw [natCast_toNat_slot] at hwf hrecord
  have hvacant := hrep1.vacant hfree
  refine ⟨h1.fillCached s buf, ⟨h1.cachedInsertPageNo, s⟩, ?_, hvacant, ?_⟩
  · unfold RmFileHandle.insertRecord
    simp only [hensure, hs]
  · obtain ⟨hreserved, hpages, hslots⟩ := fillCached_frame (h := h1) s buf
    exact hrep1.put hwf hrecord hreserved hpages hslots fun _ => hvacant.2

theorem Rep.reserveInsertSlot (hrep : Rep h m) :
    ∃ h' rid, h.reserveInsertSlot = (h', .ok rid) ∧ m.Vacant rid ∧
      Rep h' { m with reserved := Insert.insert rid m.reserved } := by
  obtain ⟨h1, s, hensure, hs, hrep1, hslot, hfree, -⟩ := hrep.ensure
  have hvacant := hrep1.vacant hfree
  refine ⟨{ h1 with reservedInserts := Insert.insert (ridKey ⟨h1.cachedInsertPageNo, s⟩) h1.reservedInserts },
    ⟨h1.cachedInsertPageNo, s⟩, ?_, hvacant, ?_, hrep1.data, ?_, ?_⟩
  · unfold RmFileHandle.reserveInsertSlot
    simp only [hensure, hs]
  · refine hrep1.wf.setReserved fun key hkey => ?_
    rcases Finset.mem_insert.1 hkey with rfl | hkey
    · exact ⟨_, hslot, rfl⟩
    · exact hrep1.wf.reserved key hkey
  · intro r
    show r ∈ Insert.insert _ m.reserved ↔
      IsSlot h1.fileHdr r ∧ ridKey r ∈ Insert.insert (ridKey ⟨h1.cachedInsertPageNo, s⟩) h1.reservedInserts
    rw [Set.mem_insert_iff, Finset.mem_insert, hrep1.reserved]
    constructor
    · rintro (rfl | ⟨hin, hkey⟩)
      · exact ⟨hslot, .inl rfl⟩
      · exact ⟨hin, .inr hkey⟩
    · rintro ⟨hin, heq | hkey⟩
      · have hlt := hrep1.wf.fits.slots_lt
        have hs := hslot.2.2.2
        left
        exact hin.key_inj hrep1.wf.fits ⟨by have := hslot.2.2.1; omega, by omega⟩ heq
      · exact .inr ⟨hin, hkey⟩
  · rintro r (rfl | hr)
    · exact hvacant.1
    · exact hrep1.clear r hr

theorem Rep.publishInsertSlot (hrep : Rep h m) {rid : Rid} (hint : IntSlot rid) {buf : Bytes}
    (hbuf : buf.length = h.fileHdr.recordSize) :
    (rid ∈ m.reserved ∧ ∃ h', h.publishInsertSlot rid buf = (h', .ok ()) ∧
        Rep h' { m.put rid (some buf) with reserved := m.reserved \ {rid} }) ∨
      (rid ∉ m.reserved ∧ ∃ e, h.publishInsertSlot rid buf = (h, .error e)) := by
  by_cases hkey : ridKey rid ∈ h.reservedInserts
  · left
    obtain ⟨r, hslot, heq⟩ := hrep.wf.reserved _ hkey
    obtain rfl : r = rid := hslot.key_inj hrep.wf.fits hint heq
    have hin : r ∈ m.reserved := (hrep.reserved r).2 ⟨hslot, hkey⟩
    have hrep1 := hrep.erase hint
    have hclear := hrep.isSet_reserved hin
    refine ⟨hin, ?_⟩
    unfold RmFileHandle.publishInsertSlot
    rw [if_neg (not_not.2 hkey)]
    simp only []
    by_cases hcached : h.cachedInsertPageNo = r.pageNo ∧ 0 ≤ h.cachedInsertPageNo
    · rw [if_pos hcached]
      obtain ⟨hwf, hrecord⟩ := fillCached_spec hrep1.wf hslot hclear hcached.1 hbuf
      refine ⟨_, rfl, ?_⟩
      obtain ⟨hreserved, hpages, hslots⟩ := fillCached_frame
        (h := { h with reservedInserts := h.reservedInserts.erase (ridKey r) }) r.slotNo.toNat buf
      exact hrep1.put hwf hrecord hreserved hpages hslots fun _ hmem => hmem.2 rfl
    · rw [if_neg hcached, fetch_of_isSlot (h := { h with reservedInserts := h.reservedInserts.erase (ridKey r) }) hslot]
      obtain ⟨hwf, hrecord⟩ := fillPage_spec hrep1.wf hslot hclear hbuf
      refine ⟨_, rfl, ?_⟩
      obtain ⟨hreserved, hpages, hslots⟩ := fillPage_frame
        (h := { h with reservedInserts := h.reservedInserts.erase (ridKey r) }) r.pageNo r.slotNo.toNat buf
      exact hrep1.put hwf hrecord hreserved hpages hslots fun _ hmem => hmem.2 rfl
  · right
    exact ⟨fun hin => hkey ((hrep.reserved rid).1 hin).2, _, if_pos hkey⟩

theorem Rep.cancelInsertSlot (hrep : Rep h m) {rid : Rid} (hint : IntSlot rid) :
    Rep (h.cancelInsertSlot rid) { m with reserved := m.reserved \ {rid} } := hrep.erase hint

/-- An operation on a slot that is no slot of the file, or whose bit is clear. -/
theorem Rep.refused (hrep : Rep h m) {rid : Rid} (hdata : m.data rid = none) :
    ¬ IsSlot h.fileHdr rid ∨ IsSlot h.fileHdr rid ∧ h.isSet rid = false := by
  by_cases hslot : IsSlot h.fileHdr rid
  · right
    refine ⟨hslot, Bool.eq_false_of_not_eq_true fun hset => ?_⟩
    exact hrep.isSet_iff.2 ⟨hslot, hset⟩ hdata
  · exact .inl hslot

theorem Rep.deleteRecord (hrep : Rep h m) {rid : Rid} (hnum : SlotNumber h.fileHdr rid) :
    (m.data rid ≠ none ∧ ∃ h', h.deleteRecord rid = (h', .ok ()) ∧ Rep h' (m.put rid none)) ∨
      (m.data rid = none ∧ ∃ e, h.deleteRecord rid = (h, .error e)) := by
  by_cases hdata : m.data rid = none
  · right
    refine ⟨hdata, ?_⟩
    rcases hrep.refused hdata with hout | ⟨hslot, hclear⟩
    · refine ⟨.pageNotExist rid.pageNo, ?_⟩
      unfold RmFileHandle.deleteRecord
      rw [fetch_of_page hnum.1 hnum.2.1 hnum.2.2 hout]
    · exact ⟨_, deleteRecord_of_clear hslot hclear⟩
  · left
    obtain ⟨hslot, hset⟩ := hrep.isSet_iff.1 hdata
    obtain ⟨h', hdel, hwf, hrecord, hreserved, hpages, hslots⟩ := deleteRecord_spec hrep.wf hslot hset
    exact ⟨hdata, h', hdel, hrep.put hwf hrecord hreserved hpages hslots fun hne => absurd rfl hne⟩

theorem Rep.updateRecord (hrep : Rep h m) {rid : Rid} (hnum : SlotNumber h.fileHdr rid) {buf : Bytes}
    (hbuf : buf.length = h.fileHdr.recordSize) :
    (m.data rid ≠ none ∧ ∃ h', h.updateRecord rid buf = (h', .ok ()) ∧ Rep h' (m.put rid (some buf))) ∨
      (m.data rid = none ∧ ∃ e, h.updateRecord rid buf = (h, .error e)) := by
  by_cases hdata : m.data rid = none
  · right
    refine ⟨hdata, ?_⟩
    rcases hrep.refused hdata with hout | ⟨hslot, hclear⟩
    · refine ⟨.pageNotExist rid.pageNo, ?_⟩
      unfold RmFileHandle.updateRecord
      rw [fetch_of_page hnum.1 hnum.2.1 hnum.2.2 hout]
    · exact ⟨_, updateRecord_of_clear hslot hclear buf⟩
  · left
    obtain ⟨hslot, hset⟩ := hrep.isSet_iff.1 hdata
    obtain ⟨h', hupd, hwf, hrecord, hreserved, hhdr⟩ := updateRecord_spec hrep.wf hslot hset hbuf
    refine ⟨hdata, h', hupd, hrep.put hwf hrecord hreserved (by rw [hhdr]) (by rw [hhdr]) fun _ hin => ?_⟩
    exact hdata (hrep.clear rid hin)

theorem Rep.insertRecordAt (hrep : Rep h m) {rid : Rid} (hslot : IsSlot h.fileHdr rid) (hfree : h.Free rid)
    {buf : Bytes} (hbuf : buf.length = h.fileHdr.recordSize) :
    ∃ h', h.insertRecordAt rid buf = (h', .ok ()) ∧ m.Vacant rid ∧ Rep h' (m.put rid (some buf)) := by
  obtain ⟨hwf, hrecord⟩ := fillPage_spec hrep.wf hslot hfree.1 hbuf
  have hvacant := hrep.vacant hfree
  refine ⟨h.fillPage rid.pageNo rid.slotNo.toNat buf, ?_, hvacant, ?_⟩
  · unfold RmFileHandle.insertRecordAt
    rw [fetch_of_isSlot hslot]
  · obtain ⟨hreserved, hpages, hslots⟩ := fillPage_frame (h := h) rid.pageNo rid.slotNo.toNat buf
    exact hrep.put hwf hrecord hreserved hpages hslots fun _ => hvacant.2

/-- One step. -/
theorem Rep.step (hrep : Rep h m) {ev : RmOp × RmRes} (hvacant : h.InsertsVacant ev) {h' : RmFileHandle}
    (hstep : h.step ev = some h') : ∃ m', SlotMap.Step m ev m' ∧ Rep h' m' := by
  obtain ⟨hproper, hcall⟩ := step_some hstep
  obtain ⟨op, res⟩ := ev
  simp only at hproper hcall
  cases op with
  | insert buf =>
      obtain ⟨h1, rid, hop, hvac, hrep'⟩ := hrep.insertRecord hproper
      rw [call, hop] at hcall
      cases hcall
      exact ⟨_, .insert buf hvac, hrep'⟩
  | reserve =>
      obtain ⟨h1, rid, hop, hvac, hrep'⟩ := hrep.reserveInsertSlot
      rw [call, hop] at hcall
      cases hcall
      exact ⟨_, .reserve hvac, hrep'⟩
  | publish rid buf =>
      rcases hrep.publishInsertSlot hproper.1 hproper.2 with ⟨hin, h1, hop, hrep'⟩ | ⟨hout, e, hop⟩
      · rw [call, hop] at hcall
        cases hcall
        exact ⟨_, .publish buf hin, hrep'⟩
      · rw [call, hop] at hcall
        cases hcall
        exact ⟨_, .publishRefused buf e hout, hrep⟩
  | cancel rid =>
      rw [call] at hcall
      cases hcall
      exact ⟨_, .cancel m rid, hrep.cancelInsertSlot hproper⟩
  | delete rid =>
      rcases hrep.deleteRecord hproper with ⟨hdata, h1, hop, hrep'⟩ | ⟨hdata, e, hop⟩
      · rw [call, hop] at hcall
        cases hcall
        exact ⟨_, .delete hdata, hrep'⟩
      · rw [call, hop] at hcall
        cases hcall
        exact ⟨_, .deleteRefused e hdata, hrep⟩
  | update rid buf =>
      rcases hrep.updateRecord hproper.1 hproper.2 with ⟨hdata, h1, hop, hrep'⟩ | ⟨hdata, e, hop⟩
      · rw [call, hop] at hcall
        cases hcall
        exact ⟨_, .update buf hdata, hrep'⟩
      · rw [call, hop] at hcall
        cases hcall
        exact ⟨_, .updateRefused buf e hdata, hrep⟩
  | insertAt rid buf =>
      obtain ⟨h1, hop, hvac, hrep'⟩ := hrep.insertRecordAt hvacant.1 hvacant.2 hproper.2
      rw [call, hop] at hcall
      cases hcall
      exact ⟨_, .insertAt buf hvac, hrep'⟩

end RmFileHandle

/-! ## The scan -/

namespace RmScan

open RmFileHandle

variable {h : RmFileHandle}

def Occupied (h : RmFileHandle) (rid : Rid) : Prop := IsSlot h.fileHdr rid ∧ h.isSet rid = true

/-- A position of the scan: a slot of a page, or the place before the first slot. -/
def Position (h : RmFileHandle) (rid : Rid) : Prop :=
  rmFirstRecordPage ≤ rid.pageNo ∧ -1 ≤ rid.slotNo ∧ rid.slotNo < h.fileHdr.numRecordsPerPage

/-- The next occupied slot, or the end. -/
structure NextOf (h : RmFileHandle) (rid r : Rid) : Prop where
  position : Position h r
  after : r.pageNo < h.fileHdr.numPages → Occupied h r ∧ Before rid r
  first : ∀ o, Occupied h o → Before rid o → o = r ∨ Before r o

theorem nextFrom_spec (h : RmFileHandle) : ∀ (left : Nat) (rid : Rid), Position h rid →
    (h.fileHdr.numPages - rid.pageNo).toNat = left → ∃ r, nextFrom h left rid = .ok r ∧ NextOf h rid r := by
  intro left
  induction left with
  | zero =>
      intro rid hpos hleft
      refine ⟨rid, rfl, hpos, fun hlt => by omega, fun o ho hbefore => ?_⟩
      have hin := ho.1.2.1
      unfold Before at hbefore
      omega
  | succ left ih =>
      intro rid hpos hleft
      obtain ⟨hlo, hslot, hhi⟩ := hpos
      have hfetch : h.fetchPageHandle rid.pageNo = .ok (h.pages rid.pageNo) := by
        unfold rmFirstRecordPage at hlo
        exact if_neg (by omega)
      have hle : (rid.slotNo + 1).toNat ≤ h.fileHdr.numRecordsPerPage := by omega
      obtain ⟨hstart, hmax, hbetween, hbit⟩ := Bitmap.nextBit_spec true (h.pages rid.pageNo).bitmap hle
      simp only [nextFrom, hfetch]
      generalize Bitmap.nextBit true (h.pages rid.pageNo).bitmap h.fileHdr.numRecordsPerPage
        (rid.slotNo + 1).toNat = nextSlot at hstart hmax hbetween hbit
      -- an occupied slot further on this page is not before the bit that was found
      have hpage : ∀ o, Occupied h o → Before rid o → o.pageNo = rid.pageNo → (nextSlot : Int) ≤ o.slotNo := by
        intro o ho hbefore hp
        by_contra hlt
        have hset : Bitmap.isSet (h.pages rid.pageNo).bitmap o.slotNo.toNat = true := by
          rw [← hp]
          exact ho.2
        have hnonneg := ho.1.2.2.1
        unfold Before at hbefore
        exact hbetween o.slotNo.toNat (by omega) (by omega) hset
      by_cases hfound : nextSlot < h.fileHdr.numRecordsPerPage
      · rw [if_pos hfound]
        refine ⟨_, rfl, ⟨hlo, ?_, ?_⟩, fun hlt => ⟨⟨⟨hlo, hlt, Int.natCast_nonneg _, Int.ofNat_lt.2 hfound⟩, ?_⟩, ?_⟩,
          fun o ho hbefore => ?_⟩
        · show (-1 : Int) ≤ nextSlot
          omega
        · exact Int.ofNat_lt.2 hfound
        · exact hbit hfound
        · right
          refine ⟨rfl, ?_⟩
          show rid.slotNo < nextSlot
          omega
        · by_cases hp : o.pageNo = rid.pageNo
          · have hge := hpage o ho hbefore hp
            rcases hge.lt_or_eq with hlt | heq
            · exact .inr (.inr ⟨hp.symm, hlt⟩)
            · left
              obtain ⟨op, os⟩ := o
              simp only at hp heq
              rw [hp, heq]
          · right
            left
            unfold Before at hbefore
            show rid.pageNo < o.pageNo
            omega
      · rw [if_neg hfound]
        have hpos' : Position h ⟨rid.pageNo + 1, -1⟩ := by
          unfold Position at *
          simp only
          omega
        obtain ⟨r, hr, hnext⟩ := ih ⟨rid.pageNo + 1, -1⟩ hpos' (by simp only; omega)
        refine ⟨r, hr, hnext.position, fun hlt => ?_, fun o ho hbefore => hnext.first o ho ?_⟩
        · obtain ⟨hocc, hafter⟩ := hnext.after hlt
          refine ⟨hocc, .inl ?_⟩
          unfold Before at hafter
          simp only at hafter
          omega
        · have hin := ho.1.2.2.2
          have hnonneg := ho.1.2.2.1
          unfold Before at hbefore
          by_cases hp : o.pageNo = rid.pageNo
          · have := hpage o ho hbefore hp
            omega
          · unfold Before
            simp only
            omega

theorem next_spec {rid : Rid} (hpos : Position h rid) : ∃ r, next h rid = .ok r ∧ NextOf h rid r :=
  nextFrom_spec h _ rid hpos rfl

/-- How many slots are left from a position on. -/
def left (h : RmFileHandle) (rid : Rid) : Nat :=
  ((h.fileHdr.numPages - rid.pageNo) * h.fileHdr.numRecordsPerPage - rid.slotNo).toNat

theorem left_lt {a b : Rid} (ha : Occupied h a) (hb : Occupied h b) (hbefore : Before a b) : left h b < left h a := by
  obtain ⟨⟨-, hap, ha0, han⟩, -⟩ := ha
  obtain ⟨⟨-, hbp, hb0, hbn⟩, -⟩ := hb
  unfold left
  have hpos : 0 < (h.fileHdr.numPages - a.pageNo) * h.fileHdr.numRecordsPerPage - a.slotNo := by
    nlinarith
  have hlt : (h.fileHdr.numPages - b.pageNo) * h.fileHdr.numRecordsPerPage - b.slotNo <
      (h.fileHdr.numPages - a.pageNo) * h.fileHdr.numRecordsPerPage - a.slotNo := by
    rcases hbefore with hp | ⟨hp, hs⟩
    · nlinarith
    · rw [hp]
      omega
  omega

/-- The loop from an occupied slot on gives it and the occupied slots after it, in order. -/
theorem ridsFrom_spec (h : RmFileHandle) : ∀ (k : Nat) (rid : Rid), left h rid = k → Occupied h rid →
    ∃ fuel l, ridsFrom h fuel rid = some (.ok (rid :: l)) ∧ (rid :: l).Pairwise Before ∧
      ∀ o, o ∈ rid :: l ↔ Occupied h o ∧ (o = rid ∨ Before rid o) := by
  intro k
  induction k using Nat.strong_induction_on with
  | _ k ih =>
      intro rid hk hocc
      have hpos : Position h rid := ⟨hocc.1.1, by have := hocc.1.2.2.1; omega, hocc.1.2.2.2⟩
      obtain ⟨r, hr, hnext⟩ := next_spec hpos
      have hnotEnd : isEnd h rid = false := decide_eq_false (not_le.2 hocc.1.2.1)
      by_cases hend : r.pageNo < h.fileHdr.numPages
      · obtain ⟨hocc', hbefore⟩ := hnext.after hend
        obtain ⟨fuel, l, hl, hsorted, hmem⟩ := ih _ (hk ▸ left_lt hocc hocc' hbefore) r rfl hocc'
        refine ⟨fuel + 1, r :: l, ?_, List.pairwise_cons.2 ⟨fun o ho => ?_, hsorted⟩, fun o => ?_⟩
        · simp only [ridsFrom, hnotEnd, Bool.false_eq_true, if_false, hr, hl, Option.map_some, Except.map]
        · rcases ((hmem o).1 ho).2 with rfl | hafter
          · exact hbefore
          · exact hbefore.trans hafter
        · rw [List.mem_cons, hmem]
          constructor
          · rintro (rfl | ⟨ho, rfl | hafter⟩)
            · exact ⟨hocc, .inl rfl⟩
            · exact ⟨ho, .inr hbefore⟩
            · exact ⟨ho, .inr (hbefore.trans hafter)⟩
          · rintro ⟨ho, heq | hafter⟩
            · exact .inl heq
            · exact .inr ⟨ho, hnext.first o ho hafter⟩
      · have hend' : isEnd h r = true := decide_eq_true (not_lt.1 hend)
        refine ⟨2, [], ?_, List.pairwise_singleton _ _, fun o => ?_⟩
        · simp only [ridsFrom, hnotEnd, Bool.false_eq_true, if_false, hr, hend', if_true, Option.map_some, Except.map]
        · rw [List.mem_singleton]
          constructor
          · rintro rfl
            exact ⟨hocc, .inl rfl⟩
          · rintro ⟨ho, heq | hafter⟩
            · exact heq
            · have hin := ho.1.2.1
              rcases hnext.first o ho hafter with rfl | hlast
              · exact absurd hin hend
              · unfold Before at hlast
                omega

/-- `RmScan` gives exactly the occupied slots, in page and slot order. -/
theorem rids_spec (hwf : Wf h) :
    ∃ fuel l, rids h fuel = some (.ok l) ∧ l.Pairwise Before ∧ ∀ o, o ∈ l ↔ Occupied h o := by
  have hfirst : Position h ⟨rmFirstRecordPage, -1⟩ := by
    have := hwf.fits.slots_pos
    refine ⟨le_rfl, le_rfl, ?_⟩
    show (-1 : Int) < h.fileHdr.numRecordsPerPage
    omega
  have hafter : ∀ o, Occupied h o → Before ⟨rmFirstRecordPage, -1⟩ o := by
    intro o ho
    have hp := ho.1.1
    have hs := ho.1.2.2.1
    unfold Before
    simp only
    omega
  obtain ⟨r, hr, hnext⟩ := next_spec hfirst
  by_cases hend : r.pageNo < h.fileHdr.numPages
  · obtain ⟨fuel, l, hl, hsorted, hmem⟩ := ridsFrom_spec h _ r rfl (hnext.after hend).1
    refine ⟨fuel, r :: l, ?_, hsorted, fun o => ?_⟩
    · simp only [rids, start, hr, hl]
    · rw [hmem]
      exact ⟨fun ho => ho.1, fun ho => ⟨ho, hnext.first o ho (hafter o ho)⟩⟩
  · refine ⟨1, [], ?_, List.Pairwise.nil, fun o => ?_⟩
    · have hend' : isEnd h r = true := decide_eq_true (not_lt.1 hend)
      simp only [rids, start, hr, ridsFrom, hend', if_true]
    · refine ⟨fun hin => absurd hin List.not_mem_nil, fun ho => ?_⟩
      have hin := ho.1.2.1
      rcases hnext.first o ho (hafter o ho) with rfl | hlast
      · exact absurd hin hend
      · unfold Before at hlast
        omega

end RmScan

/-! ## The heap file refines the slot map -/

open RmFileHandle in
theorem Rep.agrees {h : RmFileHandle} {m : SlotMap} (hrep : Rep h m) : Agrees h m where
  count := fun pageNo hlo hhi => (hrep.wf.pages pageNo hlo hhi).count
  occupied := fun _ => hrep.isSet_iff
  getSet := by
    intro rid b hb
    have hne : m.data rid ≠ none := by
      rw [hb]
      exact Option.some_ne_none b
    obtain ⟨hslot, hset⟩ := hrep.isSet_iff.1 hne
    rw [hrep.data, record_of_isSet hslot hset] at hb
    rw [getRecord_of_isSlot hslot, if_pos hset, Option.some.inj hb]
  getClear := by
    intro rid hnum hdata
    rcases hrep.refused hdata with hout | ⟨hslot, hclear⟩
    · refine ⟨.pageNotExist rid.pageNo, ?_⟩
      unfold getRecord
      rw [fetch_of_page hnum.1 hnum.2.1 hnum.2.2 hout]
    · refine ⟨.recordNotFound rid.pageNo rid.slotNo, ?_⟩
      rw [getRecord_of_isSlot hslot, hclear]
      exact if_neg Bool.false_ne_true
  scan := by
    obtain ⟨fuel, l, hl, hsorted, hmem⟩ := RmScan.rids_spec hrep.wf
    exact ⟨fuel, l, hl, hsorted, fun rid => (hmem rid).trans hrep.isSet_iff.symm⟩

/-- Every sequence of operations on a new file, with its answers, is one of the slot map, and the
counters, `get_record` and the scan agree with the map it leads to. -/
theorem heap_refines_slotMap {recordSize : Nat} {hdr : RmFileHdr} (hfile : createFile recordSize = .ok hdr)
    {evs : List (RmOp × RmRes)} {h : RmFileHandle} (hrun : run RmFileHandle.step (openFile hdr) evs = some h)
    (hvacant : Along RmFileHandle.step RmFileHandle.InsertsVacant (openFile hdr) evs) :
    ∃ m, Steps SlotMap.Step SlotMap.empty evs m ∧ Agrees h m := by
  have hstep : ∀ (s : RmFileHandle) (m : SlotMap) ev s', s.Rep m → s.InsertsVacant ev → s.step ev = some s' →
      ∃ m', SlotMap.Step m ev m' ∧ s'.Rep m' := fun _ _ _ _ hrep hvac hs => hrep.step hvac hs
  obtain ⟨m, hsteps, hrep⟩ := runs_refine hstep evs _ _ h (RmFileHandle.rep_openFile hfile) hvacant hrun
  exact ⟨m, hsteps, Rep.agrees hrep⟩

/-! ### A run -/

/-- The widest records: seven of them fit on a page. -/
def wideHdr : RmFileHdr :=
  { recordSize := 512, numPages := 1, numRecordsPerPage := 7, firstFreePageNo := -1, bitmapSize := 1 }

def wideRow : Bytes := List.replicate 512 7

def rowEvents : List (RmOp × RmRes) :=
  [(.insert wideRow, .given ⟨1, 0⟩), (.reserve, .given ⟨1, 1⟩), (.insert wideRow, .given ⟨1, 2⟩),
    (.publish ⟨1, 1⟩ wideRow, .done), (.delete ⟨1, 0⟩, .done), (.insertAt ⟨1, 0⟩ wideRow, .done)]

theorem rowEvents_run : (run RmFileHandle.step (openFile wideHdr) rowEvents).isSome := by decide +kernel

theorem rowEvents_vacant : Along RmFileHandle.step RmFileHandle.InsertsVacant (openFile wideHdr) rowEvents := by
  decide +kernel

theorem heap_refines_slotMap_rows :
    ∃ h m, run RmFileHandle.step (openFile wideHdr) rowEvents = some h ∧
      Steps SlotMap.Step SlotMap.empty rowEvents m ∧ Agrees h m := by
  obtain ⟨h, hrun⟩ := Option.isSome_iff_exists.1 rowEvents_run
  obtain ⟨m, hsteps, hagrees⟩ := @heap_refines_slotMap 512 wideHdr rfl _ h hrun rowEvents_vacant
  exact ⟨h, m, hrun, hsteps, hagrees⟩

end Rmdb.Record
