import Mathlib
import Rmdb.Record.Heap

/-!
# Pages of a heap file

`Wf h`: the pages of the file are pages of its layout, `num_records` counts the set bits, and
every page number the handle keeps is a page of the file.  Each change of a page keeps it,
with what it does to the records (`record`).
-/

namespace Rmdb.Record

open Rmdb.Index (Rid)
open Rmdb.Txn (Bytes getBytes putBytes putBytes_length putBytes_getElem?)

/-! ## Bytes -/

/-- What was written is read back. -/
theorem getBytes_putBytes_self {dst : Bytes} {off : Nat} {buf : Bytes} (h : off + buf.length ≤ dst.length) :
    getBytes (putBytes dst off buf) off buf.length = buf := by
  unfold getBytes
  refine List.ext_getElem? fun i => ?_
  by_cases hi : i < buf.length
  · rw [List.getElem?_take_of_lt hi, List.getElem?_drop, putBytes_getElem? h, if_pos (by omega),
      Nat.add_sub_cancel_left]
  · rw [List.getElem?_take_eq_none (not_lt.1 hi), List.getElem?_eq_none (not_lt.1 hi)]

theorem getBytes_putBytes_of_apart {dst : Bytes} {off : Nat} {buf : Bytes} (h : off + buf.length ≤ dst.length)
    {off' len : Nat} (hapart : off' + len ≤ off ∨ off + buf.length ≤ off') :
    getBytes (putBytes dst off buf) off' len = getBytes dst off' len := by
  unfold getBytes
  refine List.ext_getElem? fun i => ?_
  by_cases hi : i < len
  · rw [List.getElem?_take_of_lt hi, List.getElem?_take_of_lt hi, List.getElem?_drop, List.getElem?_drop,
      putBytes_getElem? h, if_neg (by omega)]
  · rw [List.getElem?_take_eq_none (not_lt.1 hi), List.getElem?_take_eq_none (not_lt.1 hi)]

/-- Slots of one size do not overlap. -/
theorem getBytes_putBytes_slot {dst : Bytes} {size s : Nat} {buf : Bytes} (hbuf : buf.length = size)
    (hs : s * size + size ≤ dst.length) (i : Nat) :
    getBytes (putBytes dst (s * size) buf) (i * size) size =
      if i = s then buf else getBytes dst (i * size) size := by
  by_cases hi : i = s
  · subst hi hbuf
    rw [if_pos rfl, getBytes_putBytes_self hs]
  · rw [if_neg hi, getBytes_putBytes_of_apart (by omega)]
    rcases Nat.lt_or_gt_of_ne hi with hlt | hgt
    · left
      calc i * size + size = (i + 1) * size := (Nat.succ_mul i size).symm
        _ ≤ s * size := Nat.mul_le_mul_right size hlt
    · right
      calc s * size + buf.length = (s + 1) * size := by rw [hbuf, Nat.succ_mul]
        _ ≤ i * size := Nat.mul_le_mul_right size hgt

/-! ## The layout of a page -/

/-- The header, the bitmap and the slots fit on a page. -/
structure Fits (hdr : RmFileHdr) : Prop where
  slots_pos : 0 < hdr.numRecordsPerPage
  bitmap : hdr.numRecordsPerPage ≤ 8 * hdr.bitmapSize
  page : offsetPageHdr + sizeofRmPageHdr + hdr.bitmapSize + hdr.numRecordsPerPage * hdr.recordSize ≤ pageSize

theorem createFile_fits {recordSize : Nat} {hdr : RmFileHdr} (h : createFile recordSize = .ok hdr) :
    Fits hdr := by
  unfold createFile at h
  by_cases hbad : recordSize < 1 ∨ rmMaxRecordSize < recordSize
  · rw [if_pos hbad] at h
    cases h
  · rw [if_neg hbad] at h
    cases h
    have hmax : recordSize ≤ 512 := by
      unfold rmMaxRecordSize at hbad
      omega
    simp only [Bitmap.bitmapWidth, pageSize, sizeofRmFileHdr]
    generalize hn : (8 * (4096 - 1 - 20) + 1) / (1 + recordSize * 8) = n
    have hfit : n * (1 + recordSize * 8) ≤ 32601 := by
      rw [← hn]
      exact Nat.div_mul_le_self _ _
    have hsplit : n * (1 + recordSize * 8) = n + 8 * (n * recordSize) := by ring
    refine ⟨?_, ?_, ?_⟩
    · show 0 < n
      rw [← hn]
      exact Nat.div_pos (by omega) (by omega)
    · show n ≤ 8 * ((n + 8 - 1) / 8)
      omega
    · show 4 + 8 + (n + 8 - 1) / 8 + n * recordSize ≤ 4096
      omega

theorem Fits.slot {hdr : RmFileHdr} (h : Fits hdr) {s : Nat} (hs : s < hdr.numRecordsPerPage) :
    s * hdr.recordSize + hdr.recordSize ≤ pageSize - offsetPageHdr - sizeofRmPageHdr - hdr.bitmapSize := by
  have hmul : s * hdr.recordSize + hdr.recordSize ≤ hdr.numRecordsPerPage * hdr.recordSize := by
    rw [← Nat.succ_mul]
    exact Nat.mul_le_mul_right _ hs
  have hpage := h.page
  omega

/-- No page number, or that of a page of records. -/
def Link (hdr : RmFileHdr) (pageNo : Int) : Prop :=
  pageNo = rmNoPage ∨ (rmFirstRecordPage ≤ pageNo ∧ pageNo < hdr.numPages)

theorem Link.mono {hdr hdr' : RmFileHdr} (hle : hdr.numPages ≤ hdr'.numPages) {pageNo : Int}
    (hlink : Link hdr pageNo) : Link hdr' pageNo :=
  hlink.imp_right fun hin => ⟨hin.1, hin.2.trans_le hle⟩

structure PageOk (hdr : RmFileHdr) (p : RmPage) : Prop where
  bitmap : p.bitmap.length = hdr.bitmapSize
  slots : p.slots.length = pageSize - offsetPageHdr - sizeofRmPageHdr - hdr.bitmapSize
  count : p.numRecords = Bitmap.countSet hdr.numRecordsPerPage p.bitmap
  link : Link hdr p.nextFreePageNo

theorem pageOk_empty (hdr : RmFileHdr) : PageOk hdr (emptyPage hdr) where
  bitmap := List.length_replicate
  slots := List.length_replicate
  count := by
    show (0 : Int) = _
    rw [emptyPage, Bitmap.countSet_init]
    rfl
  link := .inl rfl

theorem PageOk.bit_lt {hdr : RmFileHdr} {p : RmPage} (hfits : Fits hdr) (h : PageOk hdr p) {s : Nat}
    (hs : s < hdr.numRecordsPerPage) : s < 8 * p.bitmap.length := by
  rw [h.bitmap]
  exact hs.trans_le hfits.bitmap

theorem PageOk.put {hdr : RmFileHdr} {p : RmPage} (hfits : Fits hdr) (h : PageOk hdr p) {s : Nat}
    (hs : s < hdr.numRecordsPerPage) (hclear : Bitmap.isSet p.bitmap s = false) {buf : Bytes}
    (hbuf : buf.length = hdr.recordSize) : PageOk hdr (p.put hdr.recordSize s buf) where
  bitmap := (Bitmap.set_length _ _).trans h.bitmap
  slots := by
    have hslot := hfits.slot hs
    rw [← h.slots, ← hbuf] at hslot
    rw [← h.slots]
    rw [← hbuf]
    exact putBytes_length hslot
  count := by
    show p.numRecords + 1 = _
    rw [h.count]
    exact_mod_cast (Bitmap.countSet_set (h.bit_lt hfits hs) hs hclear).symm
  link := h.link

theorem PageOk.clear {hdr : RmFileHdr} {p : RmPage} (hfits : Fits hdr) (h : PageOk hdr p) {s : Nat}
    (hs : s < hdr.numRecordsPerPage) (hset : Bitmap.isSet p.bitmap s = true) :
    PageOk hdr { p with bitmap := Bitmap.reset p.bitmap s, numRecords := p.numRecords - 1 } where
  bitmap := (Bitmap.reset_length _ _).trans h.bitmap
  slots := h.slots
  count := by
    have hcount := Bitmap.countSet_reset (h.bit_lt hfits hs) hs hset
    show p.numRecords - 1 = ((Bitmap.countSet hdr.numRecordsPerPage (Bitmap.reset p.bitmap s) : Nat) : Int)
    rw [h.count]
    omega
  link := h.link

theorem PageOk.overwrite {hdr : RmFileHdr} {p : RmPage} (hfits : Fits hdr) (h : PageOk hdr p) {s : Nat}
    (hs : s < hdr.numRecordsPerPage) {buf : Bytes} (hbuf : buf.length = hdr.recordSize) :
    PageOk hdr { p with slots := putBytes p.slots (s * hdr.recordSize) buf } where
  bitmap := h.bitmap
  slots := by
    have hslot := hfits.slot hs
    rw [← h.slots, ← hbuf] at hslot
    rw [← h.slots]
    rw [← hbuf]
    exact putBytes_length hslot
  count := h.count
  link := h.link

theorem PageOk.relink {hdr : RmFileHdr} {p : RmPage} (h : PageOk hdr p) {pageNo : Int}
    (hlink : Link hdr pageNo) : PageOk hdr { p with nextFreePageNo := pageNo } :=
  ⟨h.bitmap, h.slots, h.count, hlink⟩

/-! ## Records -/

/-- A slot of a page of the file. -/
def IsSlot (hdr : RmFileHdr) (rid : Rid) : Prop :=
  rmFirstRecordPage ≤ rid.pageNo ∧ rid.pageNo < hdr.numPages ∧ 0 ≤ rid.slotNo ∧
    rid.slotNo < hdr.numRecordsPerPage

instance (hdr : RmFileHdr) (rid : Rid) : Decidable (IsSlot hdr rid) :=
  inferInstanceAs (Decidable (_ ∧ _ ∧ _ ∧ _))

theorem IsSlot.lt {hdr : RmFileHdr} {rid : Rid} (h : IsSlot hdr rid) :
    rid.slotNo.toNat < hdr.numRecordsPerPage := by
  have hlo := h.2.2.1
  have hhi := h.2.2.2
  omega

/-- The key tells slots apart, whatever 32-bit slot number the other record id has. -/
theorem ridKey_inj {a b : Rid} (ha : 0 ≤ a.slotNo ∧ a.slotNo < 2 ^ 31)
    (hb : -2 ^ 31 ≤ b.slotNo ∧ b.slotNo < 2 ^ 31) (h : ridKey a = ridKey b) : a = b := by
  obtain ⟨ap, as⟩ := a
  obtain ⟨bp, bs⟩ := b
  simp only [ridKey] at h ha hb
  have hp : ap = bp := by omega
  have hs : as = bs := by omega
  rw [hp, hs]

theorem Fits.slots_lt {hdr : RmFileHdr} (h : Fits hdr) : hdr.numRecordsPerPage < 2 ^ 31 := by
  have hpage := h.page
  have hbitmap := h.bitmap
  unfold pageSize at hpage
  omega

theorem IsSlot.key_inj {hdr : RmFileHdr} (hfits : Fits hdr) {a b : Rid} (ha : IsSlot hdr a)
    (hb : -2 ^ 31 ≤ b.slotNo ∧ b.slotNo < 2 ^ 31) (h : ridKey a = ridKey b) : a = b := by
  have hlt := hfits.slots_lt
  exact ridKey_inj ⟨ha.2.2.1, by have := ha.2.2.2; omega⟩ hb h

namespace RmFileHandle

def isSet (h : RmFileHandle) (rid : Rid) : Bool :=
  Bitmap.isSet (h.pages rid.pageNo).bitmap rid.slotNo.toNat

def content (h : RmFileHandle) (rid : Rid) : Bytes :=
  getBytes (h.pages rid.pageNo).slots (rid.slotNo.toNat * h.fileHdr.recordSize) h.fileHdr.recordSize

/-- The record in a slot, when its bit is set. -/
def record (h : RmFileHandle) (rid : Rid) : Option Bytes :=
  if IsSlot h.fileHdr rid ∧ h.isSet rid = true then some (h.content rid) else none

theorem record_of_isSet {h : RmFileHandle} {rid : Rid} (hslot : IsSlot h.fileHdr rid) (hset : h.isSet rid = true) :
    h.record rid = some (h.content rid) := if_pos ⟨hslot, hset⟩

theorem record_of_clear {h : RmFileHandle} {rid : Rid} (hclear : h.isSet rid = false) : h.record rid = none :=
  if_neg fun hand => Bool.false_ne_true (hclear.symm.trans hand.2)

theorem record_of_not_isSlot {h : RmFileHandle} {rid : Rid} (hout : ¬ IsSlot h.fileHdr rid) : h.record rid = none :=
  if_neg fun hand => hout hand.1

structure Wf (h : RmFileHandle) : Prop where
  fits : Fits h.fileHdr
  numPages : rmFirstRecordPage ≤ h.fileHdr.numPages
  fd2pageno : h.fd2pageno = h.fileHdr.numPages
  pages : ∀ pageNo, rmFirstRecordPage ≤ pageNo → pageNo < h.fileHdr.numPages → PageOk h.fileHdr (h.pages pageNo)
  firstFree : Link h.fileHdr h.fileHdr.firstFreePageNo
  cached : Link h.fileHdr h.cachedInsertPageNo
  reserved : ∀ key ∈ h.reservedInserts, ∃ rid, IsSlot h.fileHdr rid ∧ ridKey rid = key

theorem wf_openFile {recordSize : Nat} {hdr : RmFileHdr} (h : createFile recordSize = .ok hdr) :
    Wf (openFile hdr) := by
  have hfits := createFile_fits h
  unfold createFile at h
  by_cases hbad : recordSize < 1 ∨ rmMaxRecordSize < recordSize
  · rw [if_pos hbad] at h
    cases h
  · rw [if_neg hbad] at h
    cases h
    exact ⟨hfits, le_rfl, rfl, fun pageNo hlo hhi => absurd hhi (not_lt.2 hlo), .inl rfl, .inl rfl,
      fun key hkey => absurd hkey (Finset.notMem_empty key)⟩

theorem record_openFile (hdr : RmFileHdr) (rid : Rid) :
    (openFile hdr).record rid = none := by
  refine if_neg fun hset => ?_
  have : Bitmap.isSet (Bitmap.init hdr.bitmapSize) rid.slotNo.toNat = true := hset.2
  rw [Bitmap.isSet_init] at this
  cases this

section

variable {h : RmFileHandle}

theorem Wf.page (hwf : Wf h) {rid : Rid} (hslot : IsSlot h.fileHdr rid) : PageOk h.fileHdr (h.pages rid.pageNo) :=
  hwf.pages rid.pageNo hslot.1 hslot.2.1

theorem Wf.fetch (hwf : Wf h) {pageNo : Int} (hlink : Link h.fileHdr pageNo) (hne : pageNo ≠ rmNoPage) :
    h.fetchPageHandle pageNo = .ok (h.pages pageNo) := by
  obtain heq | ⟨hlo, hhi⟩ := hlink
  · exact absurd heq hne
  · have := hwf.numPages
    unfold rmFirstRecordPage at *
    exact if_neg (by omega)

theorem fetch_of_isSlot {rid : Rid} (hslot : IsSlot h.fileHdr rid) :
    h.fetchPageHandle rid.pageNo = .ok (h.pages rid.pageNo) := by
  have hlo := hslot.1
  have hhi := hslot.2.1
  unfold rmFirstRecordPage at hlo
  exact if_neg (by omega)

/-! ## Changing a page -/

theorem Wf.setPage (hwf : Wf h) (pageNo : Int) {p : RmPage} (hp : PageOk h.fileHdr p) : Wf (h.setPage pageNo p) where
  fits := hwf.fits
  numPages := hwf.numPages
  fd2pageno := hwf.fd2pageno
  pages := by
    intro q hlo hhi
    show PageOk h.fileHdr (Function.update h.pages pageNo p q)
    by_cases hq : q = pageNo
    · rw [hq, Function.update_self]
      exact hp
    · rw [Function.update_of_ne hq]
      exact hwf.pages q hlo hhi
  firstFree := hwf.firstFree
  cached := hwf.cached
  reserved := hwf.reserved

theorem Wf.setFirstFree (hwf : Wf h) {pageNo : Int} (hlink : Link h.fileHdr pageNo) : Wf (h.setFirstFree pageNo) where
  fits := ⟨hwf.fits.slots_pos, hwf.fits.bitmap, hwf.fits.page⟩
  numPages := hwf.numPages
  fd2pageno := hwf.fd2pageno
  pages := fun q hlo hhi =>
    have hq := hwf.pages q hlo hhi
    ⟨hq.bitmap, hq.slots, hq.count, hq.link⟩
  firstFree := hlink
  cached := hwf.cached
  reserved := hwf.reserved

theorem Wf.setCached (hwf : Wf h) {pageNo : Int} (hlink : Link h.fileHdr pageNo) :
    Wf { h with cachedInsertPageNo := pageNo } :=
  ⟨hwf.fits, hwf.numPages, hwf.fd2pageno, hwf.pages, hwf.firstFree, hlink, hwf.reserved⟩

theorem Wf.setReserved (hwf : Wf h) {keys : Finset Int}
    (hkeys : ∀ key ∈ keys, ∃ rid, IsSlot h.fileHdr rid ∧ ridKey rid = key) : Wf { h with reservedInserts := keys } :=
  ⟨hwf.fits, hwf.numPages, hwf.fd2pageno, hwf.pages, hwf.firstFree, hwf.cached, hkeys⟩

theorem isSet_setPage (pageNo : Int) (p : RmPage) (rid : Rid) :
    (h.setPage pageNo p).isSet rid =
      if rid.pageNo = pageNo then Bitmap.isSet p.bitmap rid.slotNo.toNat else h.isSet rid := by
  show Bitmap.isSet (Function.update h.pages pageNo p rid.pageNo).bitmap _ = _
  by_cases hp : rid.pageNo = pageNo
  · rw [if_pos hp, hp, Function.update_self]
  · rw [if_neg hp, Function.update_of_ne hp, isSet]

theorem content_setPage (pageNo : Int) (p : RmPage) (rid : Rid) :
    (h.setPage pageNo p).content rid =
      if rid.pageNo = pageNo then
        getBytes p.slots (rid.slotNo.toNat * h.fileHdr.recordSize) h.fileHdr.recordSize
      else h.content rid := by
  show getBytes (Function.update h.pages pageNo p rid.pageNo).slots _ _ = _
  by_cases hp : rid.pageNo = pageNo
  · rw [if_pos hp, hp, Function.update_self]
    rfl
  · rw [if_neg hp, Function.update_of_ne hp]
    rfl

/-- Two slots of one page. -/
theorem rid_eq_of_toNat {a b : Rid} (ha : 0 ≤ a.slotNo) (hb : 0 ≤ b.slotNo) (hp : a.pageNo = b.pageNo)
    (hs : a.slotNo.toNat = b.slotNo.toNat) : a = b := by
  obtain ⟨ap, as⟩ := a
  obtain ⟨bp, bs⟩ := b
  simp only at ha hb hp hs
  rw [hp, show as = bs by omega]

/-- A page whose bits and slots differ in one slot only. -/
theorem record_setPage {rid : Rid} (hslot : IsSlot h.fileHdr rid) {p : RmPage} {v : Option Bytes}
    (hself : (if Bitmap.isSet p.bitmap rid.slotNo.toNat = true then
      some (getBytes p.slots (rid.slotNo.toNat * h.fileHdr.recordSize) h.fileHdr.recordSize) else none) = v)
    (hbits : ∀ i, i ≠ rid.slotNo.toNat → Bitmap.isSet p.bitmap i = Bitmap.isSet (h.pages rid.pageNo).bitmap i)
    (hslots : ∀ i, i ≠ rid.slotNo.toNat →
      getBytes p.slots (i * h.fileHdr.recordSize) h.fileHdr.recordSize =
        getBytes (h.pages rid.pageNo).slots (i * h.fileHdr.recordSize) h.fileHdr.recordSize) (r : Rid) :
    (h.setPage rid.pageNo p).record r = if r = rid then v else h.record r := by
  by_cases hr : r = rid
  · subst hr
    have hbit : (h.setPage r.pageNo p).isSet r = Bitmap.isSet p.bitmap r.slotNo.toNat := by
      rw [isSet_setPage, if_pos rfl]
    rw [if_pos rfl, ← hself]
    by_cases hset : Bitmap.isSet p.bitmap r.slotNo.toNat = true
    · rw [record_of_isSet (h := h.setPage r.pageNo p) hslot (hbit.trans hset), content_setPage, if_pos rfl, if_pos hset]
    · rw [if_neg hset, record_of_clear (hbit.trans (Bool.eq_false_of_not_eq_true hset))]
  · rw [if_neg hr]
    by_cases hin : IsSlot h.fileHdr r
    · have hsame : (h.setPage rid.pageNo p).isSet r = h.isSet r ∧ (h.setPage rid.pageNo p).content r = h.content r := by
        rw [isSet_setPage, content_setPage]
        by_cases hp : r.pageNo = rid.pageNo
        · have hne : r.slotNo.toNat ≠ rid.slotNo.toNat := fun heq =>
            hr (rid_eq_of_toNat hin.2.2.1 hslot.2.2.1 hp heq)
          rw [if_pos hp, if_pos hp, hbits _ hne, hslots _ hne, isSet, content, hp]
          exact ⟨rfl, rfl⟩
        · rw [if_neg hp, if_neg hp]
          exact ⟨rfl, rfl⟩
      cases hset : h.isSet r with
      | true =>
          rw [record_of_isSet hin hset,
            record_of_isSet (h := h.setPage rid.pageNo p) hin (hsame.1.trans hset), hsame.2]
      | false => rw [record_of_clear hset, record_of_clear (hsame.1.trans hset)]
    · rw [record_of_not_isSlot hin, record_of_not_isSlot (h := h.setPage rid.pageNo p) hin]

/-- Filling a clear slot of a page. -/
theorem fill_spec (hwf : Wf h) {rid : Rid} (hslot : IsSlot h.fileHdr rid) (hclear : h.isSet rid = false)
    {buf : Bytes} (hbuf : buf.length = h.fileHdr.recordSize) :
    let p := (h.pages rid.pageNo).put h.fileHdr.recordSize rid.slotNo.toNat buf
    Wf (h.setPage rid.pageNo p) ∧ Link h.fileHdr p.nextFreePageNo ∧
      ∀ r, (h.setPage rid.pageNo p).record r = if r = rid then some buf else h.record r := by
  have hok := hwf.page hslot
  have hlt := hslot.lt
  have hbit := hok.bit_lt hwf.fits hlt
  have hfit := hwf.fits.slot hlt
  rw [← hok.slots] at hfit
  refine ⟨hwf.setPage _ (hok.put hwf.fits hlt hclear hbuf), hok.link, ?_⟩
  refine record_setPage hslot ?_ ?_ ?_
  · show (if Bitmap.isSet (Bitmap.set _ _) _ = true then some (getBytes (putBytes _ _ _) _ _) else none) = _
    rw [Bitmap.isSet_set hbit, decide_eq_true rfl, Bool.true_or, if_pos rfl, getBytes_putBytes_slot hbuf hfit,
      if_pos rfl]
  · intro i hi
    show Bitmap.isSet (Bitmap.set _ _) i = _
    rw [Bitmap.isSet_set hbit, decide_eq_false hi, Bool.false_or]
  · intro i hi
    show getBytes (putBytes _ _ _) _ _ = _
    rw [getBytes_putBytes_slot hbuf hfit, if_neg hi]

theorem fillPage_of_full {pageNo : Int} {slotNo : Nat} {buf : Bytes}
    (hfull : (h.pages pageNo).numRecords + 1 = h.fileHdr.numRecordsPerPage) :
    h.fillPage pageNo slotNo buf =
      (h.setPage pageNo ((h.pages pageNo).put h.fileHdr.recordSize slotNo buf)).setFirstFree
        (h.pages pageNo).nextFreePageNo := if_pos hfull

theorem fillPage_of_not_full {pageNo : Int} {slotNo : Nat} {buf : Bytes}
    (hfull : (h.pages pageNo).numRecords + 1 ≠ h.fileHdr.numRecordsPerPage) :
    h.fillPage pageNo slotNo buf =
      h.setPage pageNo ((h.pages pageNo).put h.fileHdr.recordSize slotNo buf) := if_neg hfull

/-- On the cached page, which leaves the cache when it is full. -/
theorem fillCached_eq (slotNo : Nat) (buf : Bytes) :
    h.fillCached slotNo buf =
      { h.fillPage h.cachedInsertPageNo slotNo buf with
        cachedInsertPageNo :=
          if (h.pages h.cachedInsertPageNo).numRecords + 1 = h.fileHdr.numRecordsPerPage then -1
          else h.cachedInsertPageNo } := by
  by_cases hfull : (h.pages h.cachedInsertPageNo).numRecords + 1 = h.fileHdr.numRecordsPerPage
  · rw [fillPage_of_full hfull, if_pos hfull]
    exact if_pos hfull
  · rw [fillPage_of_not_full hfull, if_neg hfull]
    exact if_neg hfull

theorem fillPage_spec (hwf : Wf h) {rid : Rid} (hslot : IsSlot h.fileHdr rid) (hclear : h.isSet rid = false)
    {buf : Bytes} (hbuf : buf.length = h.fileHdr.recordSize) :
    Wf (h.fillPage rid.pageNo rid.slotNo.toNat buf) ∧
      ∀ r, (h.fillPage rid.pageNo rid.slotNo.toNat buf).record r = if r = rid then some buf else h.record r := by
  obtain ⟨hwf', hlink, hrecord⟩ := fill_spec hwf hslot hclear hbuf
  by_cases hfull : (h.pages rid.pageNo).numRecords + 1 = h.fileHdr.numRecordsPerPage
  · rw [fillPage_of_full hfull]
    exact ⟨hwf'.setFirstFree hlink, hrecord⟩
  · rw [fillPage_of_not_full hfull]
    exact ⟨hwf', hrecord⟩

/-- What filling a page leaves as it was. -/
theorem fillPage_frame (pageNo : Int) (slotNo : Nat) (buf : Bytes) :
    (h.fillPage pageNo slotNo buf).reservedInserts = h.reservedInserts ∧
      (h.fillPage pageNo slotNo buf).fileHdr.numPages = h.fileHdr.numPages ∧
      (h.fillPage pageNo slotNo buf).fileHdr.numRecordsPerPage = h.fileHdr.numRecordsPerPage := by
  by_cases hfull : (h.pages pageNo).numRecords + 1 = h.fileHdr.numRecordsPerPage
  · rw [fillPage_of_full hfull]
    exact ⟨rfl, rfl, rfl⟩
  · rw [fillPage_of_not_full hfull]
    exact ⟨rfl, rfl, rfl⟩

theorem fillCached_frame (slotNo : Nat) (buf : Bytes) :
    (h.fillCached slotNo buf).reservedInserts = h.reservedInserts ∧
      (h.fillCached slotNo buf).fileHdr.numPages = h.fileHdr.numPages ∧
      (h.fillCached slotNo buf).fileHdr.numRecordsPerPage = h.fileHdr.numRecordsPerPage := by
  rw [fillCached_eq]
  exact fillPage_frame h.cachedInsertPageNo slotNo buf

theorem fillCached_spec (hwf : Wf h) {rid : Rid} (hslot : IsSlot h.fileHdr rid) (hclear : h.isSet rid = false)
    (hcached : h.cachedInsertPageNo = rid.pageNo) {buf : Bytes} (hbuf : buf.length = h.fileHdr.recordSize) :
    Wf (h.fillCached rid.slotNo.toNat buf) ∧
      ∀ r, (h.fillCached rid.slotNo.toNat buf).record r = if r = rid then some buf else h.record r := by
  obtain ⟨hwf', hrecord⟩ := fillPage_spec hwf hslot hclear hbuf
  rw [fillCached_eq, hcached]
  refine ⟨hwf'.setCached ?_, hrecord⟩
  by_cases hfull : (h.pages rid.pageNo).numRecords + 1 = h.fileHdr.numRecordsPerPage
  · rw [if_pos hfull]
    exact .inl rfl
  · rw [if_neg hfull]
    right
    rw [(fillPage_frame _ _ _).2.1]
    exact ⟨hslot.1, hslot.2.1⟩

end

end RmFileHandle

end Rmdb.Record
