import Mathlib
import Rmdb.Lib.Steps
import Rmdb.Record.Pages

/-!
# Operations of a heap file

What each operation does to a well-formed handle, and the operations as one step function:
`step h (op, res)` runs `op`, which gave `res`.
-/

namespace Rmdb.Record

open Rmdb.Index (Rid)
open Rmdb.Txn (Bytes getBytes putBytes)
open Rmdb.Lib

namespace RmFileHandle

variable {h : RmFileHandle}

/-! ## The free slot -/

/-- Neither set nor reserved. -/
def Free (h : RmFileHandle) (rid : Rid) : Prop := h.isSet rid = false ∧ ridKey rid ∉ h.reservedInserts

instance (h : RmFileHandle) (rid : Rid) : Decidable (h.Free rid) := inferInstanceAs (Decidable (_ ∧ _))

theorem freeSlotFrom_spec (h : RmFileHandle) : ∀ fuel start, start ≤ h.fileHdr.numRecordsPerPage →
    h.fileHdr.numRecordsPerPage < start + fuel →
    (∀ s, h.freeSlotFrom fuel start = some s →
      s < h.fileHdr.numRecordsPerPage ∧ h.Free ⟨h.cachedInsertPageNo, s⟩) ∧
    (h.freeSlotFrom fuel start = none →
      ∀ i : Nat, start ≤ i → i < h.fileHdr.numRecordsPerPage → ¬ h.Free ⟨h.cachedInsertPageNo, i⟩) := by
  intro fuel
  induction fuel with
  | zero => intro start hle hlt; omega
  | succ fuel ih =>
      intro start hle hlt
      obtain ⟨hstart, hmax, hbefore, hbit⟩ :=
        Bitmap.nextBit_spec false (h.pages h.cachedInsertPageNo).bitmap hle
      simp only [freeSlotFrom]
      generalize Bitmap.nextBit false (h.pages h.cachedInsertPageNo).bitmap h.fileHdr.numRecordsPerPage start =
        slotNo at hstart hmax hbefore hbit
      by_cases hend : h.fileHdr.numRecordsPerPage ≤ slotNo
      · rw [if_pos hend]
        refine ⟨fun s hs => (Option.some_ne_none s hs.symm).elim, fun _ i hlo hhi hfree => ?_⟩
        exact hbefore i hlo (by omega) hfree.1
      · rw [if_neg hend]
        by_cases hkey : ridKey ⟨h.cachedInsertPageNo, slotNo⟩ ∉ h.reservedInserts
        · rw [if_pos hkey]
          refine ⟨fun s hs => ?_, fun hnone => (Option.some_ne_none _ hnone).elim⟩
          obtain rfl := Option.some.inj hs
          exact ⟨by omega, hbit (by omega), hkey⟩
        · rw [if_neg hkey]
          obtain ⟨hsome, hnone⟩ := ih (slotNo + 1) (by omega) (by omega)
          refine ⟨hsome, fun hn i hlo hhi hfree => ?_⟩
          rcases Nat.lt_trichotomy i slotNo with hlt | rfl | hgt
          · exact hbefore i hlo hlt hfree.1
          · exact hkey hfree.2
          · exact hnone hn i hgt hhi hfree

theorem findFree_some {s : Nat} (hs : h.findFreeSlotOnCachedPage = some s) :
    0 ≤ h.cachedInsertPageNo ∧ s < h.fileHdr.numRecordsPerPage ∧ h.Free ⟨h.cachedInsertPageNo, s⟩ := by
  unfold findFreeSlotOnCachedPage at hs
  by_cases hneg : h.cachedInsertPageNo < 0
  · rw [if_pos hneg] at hs
    cases hs
  · rw [if_neg hneg] at hs
    exact ⟨not_lt.1 hneg, (freeSlotFrom_spec h _ 0 (Nat.zero_le _) (by omega)).1 s hs⟩

theorem findFree_none (hcached : 0 ≤ h.cachedInsertPageNo) (hnone : h.findFreeSlotOnCachedPage = none) {s : Nat}
    (hs : s < h.fileHdr.numRecordsPerPage) : ¬ h.Free ⟨h.cachedInsertPageNo, s⟩ := by
  unfold findFreeSlotOnCachedPage at hnone
  rw [if_neg (not_lt.2 hcached)] at hnone
  exact (freeSlotFrom_spec h _ 0 (Nat.zero_le _) (by omega)).2 hnone s (Nat.zero_le s) hs

/-! ## The insert page -/

theorem pages_openInsertPage (h : RmFileHandle) (pageNo : Int) :
    h.openInsertPage.pages pageNo =
      if pageNo = h.fd2pageno then { emptyPage h.fileHdr with nextFreePageNo := h.fileHdr.firstFreePageNo }
      else h.pages pageNo := by
  by_cases hp : pageNo = h.fd2pageno
  · simp [openInsertPage, createNewPageHandle, setFirstFree, setPage, hp]
  · simp [openInsertPage, createNewPageHandle, setFirstFree, setPage, hp]

theorem wf_openInsertPage (hwf : Wf h) : Wf h.openInsertPage where
  fits := ⟨hwf.fits.slots_pos, hwf.fits.bitmap, hwf.fits.page⟩
  numPages := hwf.numPages.trans (by show h.fileHdr.numPages ≤ h.fileHdr.numPages + 1; omega)
  fd2pageno := by
    show h.fd2pageno + 1 = h.fileHdr.numPages + 1
    rw [hwf.fd2pageno]
  pages := by
    intro pageNo hlo hhi
    have hgrow : h.fileHdr.numPages ≤ h.openInsertPage.fileHdr.numPages := by
      show h.fileHdr.numPages ≤ h.fileHdr.numPages + 1
      omega
    rw [pages_openInsertPage]
    by_cases hp : pageNo = h.fd2pageno
    · rw [if_pos hp]
      have hempty := pageOk_empty h.fileHdr
      exact ⟨hempty.bitmap, hempty.slots, hempty.count, hwf.firstFree.mono hgrow⟩
    · rw [if_neg hp]
      have hold : pageNo < h.fileHdr.numPages := by
        have hlt : pageNo < h.fileHdr.numPages + 1 := hhi
        have := hwf.fd2pageno
        omega
      have hok := hwf.pages pageNo hlo hold
      exact ⟨hok.bitmap, hok.slots, hok.count, hok.link.mono hgrow⟩
  firstFree := by
    right
    show rmFirstRecordPage ≤ h.fd2pageno ∧ h.fd2pageno < h.fileHdr.numPages + 1
    have := hwf.numPages
    rw [hwf.fd2pageno]
    omega
  cached := by
    right
    show rmFirstRecordPage ≤ h.fd2pageno ∧ h.fd2pageno < h.fileHdr.numPages + 1
    have := hwf.numPages
    rw [hwf.fd2pageno]
    omega
  reserved := by
    intro key hkey
    obtain ⟨rid, hslot, hrid⟩ := hwf.reserved key hkey
    refine ⟨rid, ⟨hslot.1, ?_, hslot.2.2⟩, hrid⟩
    exact hslot.2.1.trans (Int.lt_succ _)

theorem isSet_openInsertPage (hwf : Wf h) (rid : Rid) :
    h.openInsertPage.isSet rid = if rid.pageNo = h.fileHdr.numPages then false else h.isSet rid := by
  unfold isSet
  rw [pages_openInsertPage, hwf.fd2pageno]
  by_cases hp : rid.pageNo = h.fileHdr.numPages
  · rw [if_pos hp, if_pos hp]
    exact Bitmap.isSet_init _ _
  · rw [if_neg hp, if_neg hp]

theorem record_openInsertPage (hwf : Wf h) (rid : Rid) : h.openInsertPage.record rid = h.record rid := by
  have hbit := isSet_openInsertPage hwf rid
  by_cases hp : rid.pageNo = h.fileHdr.numPages
  · rw [if_pos hp] at hbit
    rw [record_of_clear hbit, record_of_not_isSlot fun hslot => (hslot.2.1.trans_eq hp.symm).false]
  · rw [if_neg hp] at hbit
    have hcontent : h.openInsertPage.content rid = h.content rid := by
      have hpage : h.openInsertPage.pages rid.pageNo = h.pages rid.pageNo := by
        rw [pages_openInsertPage, if_neg (by rw [hwf.fd2pageno]; exact hp)]
      unfold content
      rw [hpage]
      rfl
    cases hset : h.isSet rid with
    | false => rw [record_of_clear hset, record_of_clear (hbit.trans hset)]
    | true =>
        by_cases hslot : IsSlot h.fileHdr rid
        · have hslot' : IsSlot h.openInsertPage.fileHdr rid :=
            ⟨hslot.1, hslot.2.1.trans (Int.lt_succ _), hslot.2.2⟩
          rw [record_of_isSet hslot hset, record_of_isSet hslot' (hbit.trans hset), hcontent]
        · rw [record_of_not_isSlot hslot, record_of_not_isSlot]
          intro hslot'
          refine hslot ⟨hslot'.1, ?_, hslot'.2.2⟩
          have hlt : rid.pageNo < h.fileHdr.numPages + 1 := hslot'.2.1
          omega

theorem findFree_openInsertPage (hwf : Wf h) : h.openInsertPage.findFreeSlotOnCachedPage.isSome := by
  have hcached : h.openInsertPage.cachedInsertPageNo = h.fileHdr.numPages := hwf.fd2pageno
  cases hfree : h.openInsertPage.findFreeSlotOnCachedPage with
  | some s => rfl
  | none =>
      have hpos := hwf.numPages
      unfold rmFirstRecordPage at hpos
      refine (findFree_none (by omega) hfree (s := 0) hwf.fits.slots_pos ?_).elim
      rw [hcached]
      refine ⟨by rw [isSet_openInsertPage hwf, if_pos rfl], fun hkey => ?_⟩
      obtain ⟨rid, hslot, hrid⟩ := hwf.reserved _ hkey
      have heq := hslot.key_inj hwf.fits (by norm_num) hrid
      have := hslot.2.1
      rw [heq] at this
      exact lt_irrefl _ this

/-- `ensure_insert_page_cached` keeps the page, takes the first free one, or opens a new one. -/
theorem ensure_cases (hwf : Wf h) :
    ∃ h', h.ensureInsertPageCached = (h', .ok ()) ∧ h'.findFreeSlotOnCachedPage.isSome ∧
      (h' = h ∨
        h.findFreeSlotOnCachedPage = none ∧
          (h.fileHdr.firstFreePageNo ≠ rmNoPage ∧ h' = { h with cachedInsertPageNo := h.fileHdr.firstFreePageNo } ∨
            (h.fileHdr.firstFreePageNo ≠ rmNoPage → ∀ s < h.fileHdr.numRecordsPerPage,
              ¬ h.Free ⟨h.fileHdr.firstFreePageNo, (s : Nat)⟩) ∧ h' = h.openInsertPage)) := by
  unfold ensureInsertPageCached
  cases hfree : h.findFreeSlotOnCachedPage with
  | some s => exact ⟨h, rfl, by rw [hfree]; rfl, .inl rfl⟩
  | none =>
      have hnew := findFree_openInsertPage hwf
      simp only [Option.isSome_none, Bool.false_eq_true, if_false]
      by_cases hfirst : h.fileHdr.firstFreePageNo ≠ rmNoPage
      · have hfetch := (hwf.setCached (.inl rfl) : Wf { h with cachedInsertPageNo := -1 }).fetch hwf.firstFree hfirst
        rw [if_pos hfirst, hfetch]
        simp only []
        cases hhead : ({ h with cachedInsertPageNo := h.fileHdr.firstFreePageNo } :
            RmFileHandle).findFreeSlotOnCachedPage with
        | some s =>
            refine ⟨_, if_pos rfl, ?_, .inr ⟨trivial, .inl ⟨hfirst, rfl⟩⟩⟩
            rw [hhead]
            rfl
        | none =>
            refine ⟨_, if_neg Bool.false_ne_true, hnew, .inr ⟨trivial, .inr ⟨fun _ s hs => ?_, rfl⟩⟩⟩
            have hpos : 0 ≤ h.fileHdr.firstFreePageNo := by
              obtain heq | hin := hwf.firstFree
              · exact absurd heq hfirst
              · have := hin.1
                unfold rmFirstRecordPage at this
                omega
            exact findFree_none (h := { h with cachedInsertPageNo := h.fileHdr.firstFreePageNo }) hpos hhead hs
      · rw [if_neg hfirst]
        exact ⟨_, rfl, hnew, .inr ⟨trivial, .inr ⟨fun h => absurd h hfirst, rfl⟩⟩⟩

/-- It gives a page with a free slot, and changes no record and no reservation. -/
theorem ensure_spec (hwf : Wf h) :
    ∃ h' s, h.ensureInsertPageCached = (h', .ok ()) ∧ h'.findFreeSlotOnCachedPage = some s ∧ Wf h' ∧
      IsSlot h'.fileHdr ⟨h'.cachedInsertPageNo, s⟩ ∧ h'.Free ⟨h'.cachedInsertPageNo, s⟩ ∧
      (∀ r, h'.record r = h.record r) ∧ h'.reservedInserts = h.reservedInserts ∧
      h'.fileHdr.recordSize = h.fileHdr.recordSize ∧
      h'.fileHdr.numRecordsPerPage = h.fileHdr.numRecordsPerPage ∧ h.fileHdr.numPages ≤ h'.fileHdr.numPages := by
  obtain ⟨h', hensure, hsome, hcases⟩ := ensure_cases hwf
  obtain ⟨s, hs⟩ := Option.isSome_iff_exists.1 hsome
  obtain ⟨hpos, hlt, hfree⟩ := findFree_some hs
  have hkept : Wf h' ∧ (∀ r, h'.record r = h.record r) ∧ h'.reservedInserts = h.reservedInserts ∧
      h'.fileHdr.recordSize = h.fileHdr.recordSize ∧
      h'.fileHdr.numRecordsPerPage = h.fileHdr.numRecordsPerPage ∧ h.fileHdr.numPages ≤ h'.fileHdr.numPages := by
    obtain rfl | ⟨-, ⟨-, rfl⟩ | ⟨-, rfl⟩⟩ := hcases
    · exact ⟨hwf, fun _ => rfl, rfl, rfl, rfl, le_rfl⟩
    · exact ⟨hwf.setCached hwf.firstFree, fun _ => rfl, rfl, rfl, rfl, le_rfl⟩
    · exact ⟨wf_openInsertPage hwf, record_openInsertPage hwf, rfl, rfl, rfl, (Int.lt_succ _).le⟩
  obtain ⟨hwf', hkept⟩ := hkept
  refine ⟨h', s, hensure, hs, hwf', ?_, hfree, hkept⟩
  obtain heq | hin := hwf'.cached
  · rw [heq] at hpos
    exact absurd hpos (by decide)
  · exact ⟨hin.1, hin.2, Int.natCast_nonneg s, Int.ofNat_lt.2 hlt⟩

/-! ## The other operations -/

theorem fetch_of_page {rid : Rid} (hpage : rid.pageNo ≠ 0) (hlo : 0 ≤ rid.slotNo)
    (hhi : rid.slotNo < h.fileHdr.numRecordsPerPage) (hout : ¬ IsSlot h.fileHdr rid) :
    h.fetchPageHandle rid.pageNo = .error (.pageNotExist rid.pageNo) := by
  refine if_pos ?_
  by_contra hin
  refine hout ⟨?_, ?_, hlo, hhi⟩
  · unfold rmFirstRecordPage
    omega
  · omega

/-- What `delete_record` leaves behind. -/
def cleared (h : RmFileHandle) (rid : Rid) : RmFileHandle :=
  h.setPage rid.pageNo
    { h.pages rid.pageNo with
      bitmap := Bitmap.reset (h.pages rid.pageNo).bitmap rid.slotNo.toNat
      numRecords := (h.pages rid.pageNo).numRecords - 1 }

theorem deleteRecord_of_isSet {rid : Rid} (hslot : IsSlot h.fileHdr rid) (hset : h.isSet rid = true) :
    h.deleteRecord rid =
      (if (h.pages rid.pageNo).numRecords = h.fileHdr.numRecordsPerPage then
        (h.cleared rid).releasePageHandle rid.pageNo else h.cleared rid, .ok ()) := by
  unfold isSet at hset
  unfold deleteRecord
  rw [fetch_of_isSlot hslot]
  simp only [hset, Bool.not_true, Bool.false_eq_true, if_false, decide_eq_true_eq]
  rfl

theorem deleteRecord_of_clear {rid : Rid} (hslot : IsSlot h.fileHdr rid) (hclear : h.isSet rid = false) :
    h.deleteRecord rid = (h, .error (.recordNotFound rid.pageNo rid.slotNo)) := by
  unfold isSet at hclear
  unfold deleteRecord
  rw [fetch_of_isSlot hslot]
  simp only [hclear, Bool.not_false, if_true]

theorem cleared_spec (hwf : Wf h) {rid : Rid} (hslot : IsSlot h.fileHdr rid) (hset : h.isSet rid = true) :
    Wf (h.cleared rid) ∧ ∀ r, (h.cleared rid).record r = if r = rid then none else h.record r := by
  have hok := hwf.page hslot
  have hlt := hslot.lt
  have hbit := hok.bit_lt hwf.fits hlt
  refine ⟨hwf.setPage _ (hok.clear hwf.fits hlt hset), record_setPage hslot ?_ ?_ fun i _ => rfl⟩
  · show (if Bitmap.isSet (Bitmap.reset _ _) _ = true then some _ else none) = none
    rw [Bitmap.isSet_reset hbit, decide_eq_true rfl, Bool.not_true, Bool.false_and, if_neg Bool.false_ne_true]
  · intro i hi
    show Bitmap.isSet (Bitmap.reset _ _) i = _
    rw [Bitmap.isSet_reset hbit, decide_eq_false hi, Bool.not_false, Bool.true_and]

theorem release_spec (hwf : Wf h) {rid : Rid} (hslot : IsSlot h.fileHdr rid) :
    Wf (h.releasePageHandle rid.pageNo) ∧ ∀ r, (h.releasePageHandle rid.pageNo).record r = h.record r := by
  have hok := hwf.page hslot
  constructor
  · exact (hwf.setPage rid.pageNo (hok.relink hwf.firstFree)).setFirstFree (.inr ⟨hslot.1, hslot.2.1⟩)
  · intro r
    have hpage : ∀ p, ((h.releasePageHandle rid.pageNo).pages p).bitmap = (h.pages p).bitmap ∧
        ((h.releasePageHandle rid.pageNo).pages p).slots = (h.pages p).slots := by
      intro p
      show (Function.update h.pages rid.pageNo _ p).bitmap = _ ∧ (Function.update h.pages rid.pageNo _ p).slots = _
      by_cases hp : p = rid.pageNo
      · rw [hp, Function.update_self]
        exact ⟨rfl, rfl⟩
      · rw [Function.update_of_ne hp]
        exact ⟨rfl, rfl⟩
    unfold record isSet content
    rw [(hpage r.pageNo).1, (hpage r.pageNo).2]
    rfl

theorem deleteRecord_spec (hwf : Wf h) {rid : Rid} (hslot : IsSlot h.fileHdr rid) (hset : h.isSet rid = true) :
    ∃ h', h.deleteRecord rid = (h', .ok ()) ∧ Wf h' ∧ (∀ r, h'.record r = if r = rid then none else h.record r) ∧
      h'.reservedInserts = h.reservedInserts ∧ h'.fileHdr.numPages = h.fileHdr.numPages ∧
      h'.fileHdr.numRecordsPerPage = h.fileHdr.numRecordsPerPage := by
  obtain ⟨hwf', hrecord⟩ := cleared_spec hwf hslot hset
  rw [deleteRecord_of_isSet hslot hset]
  by_cases hfull : (h.pages rid.pageNo).numRecords = h.fileHdr.numRecordsPerPage
  · obtain ⟨hwf'', hsame⟩ := release_spec hwf' hslot
    rw [if_pos hfull]
    exact ⟨_, rfl, hwf'', fun r => (hsame r).trans (hrecord r), rfl, rfl, rfl⟩
  · rw [if_neg hfull]
    exact ⟨_, rfl, hwf', hrecord, rfl, rfl, rfl⟩

theorem updateRecord_spec (hwf : Wf h) {rid : Rid} (hslot : IsSlot h.fileHdr rid) (hset : h.isSet rid = true)
    {buf : Bytes} (hbuf : buf.length = h.fileHdr.recordSize) :
    ∃ h', h.updateRecord rid buf = (h', .ok ()) ∧ Wf h' ∧
      (∀ r, h'.record r = if r = rid then some buf else h.record r) ∧
      h'.reservedInserts = h.reservedInserts ∧ h'.fileHdr = h.fileHdr := by
  have hok := hwf.page hslot
  have hlt := hslot.lt
  have hfit := hwf.fits.slot hlt
  rw [← hok.slots] at hfit
  refine ⟨h.setPage rid.pageNo { h.pages rid.pageNo with
      slots := putBytes (h.pages rid.pageNo).slots (rid.slotNo.toNat * h.fileHdr.recordSize) buf },
    ?_, hwf.setPage _ (hok.overwrite hwf.fits hlt hbuf), record_setPage hslot ?_ (fun i _ => rfl) ?_, rfl, rfl⟩
  · unfold isSet at hset
    unfold updateRecord
    rw [fetch_of_isSlot hslot]
    simp only [hset, Bool.not_true, Bool.false_eq_true, if_false]
  · show (if Bitmap.isSet _ _ = true then some (getBytes (putBytes _ _ _) _ _) else none) = _
    unfold isSet at hset
    rw [if_pos hset, getBytes_putBytes_slot hbuf hfit, if_pos rfl]
  · intro i hi
    show getBytes (putBytes _ _ _) _ _ = _
    rw [getBytes_putBytes_slot hbuf hfit, if_neg hi]

theorem updateRecord_of_clear {rid : Rid} (hslot : IsSlot h.fileHdr rid) (hclear : h.isSet rid = false) (buf : Bytes) :
    h.updateRecord rid buf = (h, .error (.recordNotFound rid.pageNo rid.slotNo)) := by
  unfold isSet at hclear
  unfold updateRecord
  rw [fetch_of_isSlot hslot]
  simp only [hclear, Bool.not_false, if_true]

theorem getRecord_of_isSlot {rid : Rid} (hslot : IsSlot h.fileHdr rid) :
    h.getRecord rid =
      if h.isSet rid = true then .ok (h.content rid) else .error (.recordNotFound rid.pageNo rid.slotNo) := by
  unfold getRecord isSet content
  rw [fetch_of_isSlot hslot]
  cases hset : Bitmap.isSet (h.pages rid.pageNo).bitmap rid.slotNo.toNat with
  | true => simp only [hset, Bool.not_true, Bool.false_eq_true, if_false, if_true]
  | false => simp only [hset, Bool.not_false, Bool.false_eq_true, if_false, if_true]

end RmFileHandle

/-! ## Steps -/

inductive RmOp where
  | insert (buf : Bytes)
  | reserve
  | publish (rid : Rid) (buf : Bytes)
  | cancel (rid : Rid)
  | delete (rid : Rid)
  | update (rid : Rid) (buf : Bytes)
  | insertAt (rid : Rid) (buf : Bytes)
deriving DecidableEq, Repr

inductive RmRes where
  | given (rid : Rid)
  | done
  | err (e : RmError)
deriving DecidableEq, Repr

def RmRes.ofRid : Except RmError Rid → RmRes
  | .ok rid => .given rid
  | .error e => .err e

def RmRes.ofUnit : Except RmError Unit → RmRes
  | .ok () => .done
  | .error e => .err e

namespace RmFileHandle

def call (h : RmFileHandle) : RmOp → RmFileHandle × RmRes
  | .insert buf => (h.insertRecord buf).map id RmRes.ofRid
  | .reserve => h.reserveInsertSlot.map id RmRes.ofRid
  | .publish rid buf => (h.publishInsertSlot rid buf).map id RmRes.ofUnit
  | .cancel rid => (h.cancelInsertSlot rid, .done)
  | .delete rid => (h.deleteRecord rid).map id RmRes.ofUnit
  | .update rid buf => (h.updateRecord rid buf).map id RmRes.ofUnit
  | .insertAt rid buf => (h.insertRecordAt rid buf).map id RmRes.ofUnit

/-- A record id of a slot: not of the header page, and the slot number is one of a page. -/
def SlotNumber (hdr : RmFileHdr) (rid : Rid) : Prop :=
  rid.pageNo ≠ 0 ∧ 0 ≤ rid.slotNo ∧ rid.slotNo < hdr.numRecordsPerPage

/-- `Rid::slot_no` is an `int`. -/
def IntSlot (rid : Rid) : Prop := -2 ^ 31 ≤ rid.slotNo ∧ rid.slotNo < 2 ^ 31

instance (hdr : RmFileHdr) (rid : Rid) : Decidable (SlotNumber hdr rid) := inferInstanceAs (Decidable (_ ∧ _ ∧ _))
instance (rid : Rid) : Decidable (IntSlot rid) := inferInstanceAs (Decidable (_ ∧ _))

/-- A buffer holds one record, and a page is read through record ids of slots only. -/
def Proper (h : RmFileHandle) : RmOp → Prop
  | .insert buf => buf.length = h.fileHdr.recordSize
  | .reserve => True
  | .publish rid buf => IntSlot rid ∧ buf.length = h.fileHdr.recordSize
  | .cancel rid => IntSlot rid
  | .delete rid => SlotNumber h.fileHdr rid
  | .update rid buf => SlotNumber h.fileHdr rid ∧ buf.length = h.fileHdr.recordSize
  | .insertAt rid buf => SlotNumber h.fileHdr rid ∧ buf.length = h.fileHdr.recordSize

instance (h : RmFileHandle) : (op : RmOp) → Decidable (h.Proper op)
  | .insert buf => inferInstanceAs (Decidable (buf.length = h.fileHdr.recordSize))
  | .reserve => inferInstanceAs (Decidable True)
  | .publish rid buf => inferInstanceAs (Decidable (IntSlot rid ∧ buf.length = h.fileHdr.recordSize))
  | .cancel rid => inferInstanceAs (Decidable (IntSlot rid))
  | .delete rid => inferInstanceAs (Decidable (SlotNumber h.fileHdr rid))
  | .update rid buf => inferInstanceAs (Decidable (SlotNumber h.fileHdr rid ∧ buf.length = h.fileHdr.recordSize))
  | .insertAt rid buf => inferInstanceAs (Decidable (SlotNumber h.fileHdr rid ∧ buf.length = h.fileHdr.recordSize))

def step (h : RmFileHandle) (ev : RmOp × RmRes) : Option RmFileHandle :=
  if h.Proper ev.1 ∧ (h.call ev.1).2 = ev.2 then some (h.call ev.1).1 else none

theorem step_some {h h' : RmFileHandle} {ev : RmOp × RmRes} (hstep : h.step ev = some h') :
    h.Proper ev.1 ∧ h.call ev.1 = (h', ev.2) := by
  unfold step at hstep
  by_cases hc : h.Proper ev.1 ∧ (h.call ev.1).2 = ev.2
  · rw [if_pos hc] at hstep
    exact ⟨hc.1, Prod.ext (Option.some.inj hstep) hc.2⟩
  · rw [if_neg hc] at hstep
    cases hstep

end RmFileHandle

end Rmdb.Record
