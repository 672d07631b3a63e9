import Mathlib
import Rmdb.Txn.Words
import Rmdb.Record.Bitmap

/-!
# The heap file of a table

`RmFileHandle` of src/record/rm_file_handle.h and .cpp, `RmScan` of src/record/rm_scan.cpp and
`RmManager::create_file` of src/record/rm_manager.h.

`pages p` is the content of page `p` (the buffer pool gives the page asked for and a new page
of zeros).  The five `cached_insert_*` fields are set and cleared together, up to pointers
that are read only under `cached_insert_page_no_ >= 0`: `cachedInsertPageNo` stands for them,
`-1` when no page is cached.  A slot of -1 (`find_free_slot_on_cached_page`) is `none`.
-/

namespace Rmdb.Record

open Rmdb.Index (Rid)
open Rmdb.Txn (Bytes getBytes putBytes)

def pageSize : Nat := 4096
def rmNoPage : Int := -1
def rmFirstRecordPage : Int := 1
def rmMaxRecordSize : Nat := 512
def sizeofRmFileHdr : Nat := 20
def sizeofRmPageHdr : Nat := 8
def offsetPageHdr : Nat := 4

structure RmFileHdr where
  recordSize : Nat
  numPages : Int
  numRecordsPerPage : Nat
  firstFreePageNo : Int
  bitmapSize : Nat
deriving DecidableEq, Repr

/-- A page: its header `RmPageHdr`, the bitmap and the slots (all that follows the bitmap). -/
structure RmPage where
  nextFreePageNo : Int
  numRecords : Int
  bitmap : Bitmap
  slots : Bytes
deriving DecidableEq, Repr

inductive RmError where
  | invalidRecordSize (recordSize : Nat)
  | pageNotExist (pageNo : Int)
  | recordNotFound (pageNo slotNo : Int)
  | internal (msg : String)
deriving DecidableEq, Repr

/-! ## The file -/

/-- `RmManager::create_file`: the header written to page 0. -/
def createFile (recordSize : Nat) : Except RmError RmFileHdr :=
  if recordSize < 1 ∨ rmMaxRecordSize < recordSize then .error (.invalidRecordSize recordSize)
  else
    let n := (Bitmap.bitmapWidth * (pageSize - 1 - sizeofRmFileHdr) + 1) / (1 + recordSize * Bitmap.bitmapWidth)
    .ok { recordSize := recordSize, numPages := 1, numRecordsPerPage := n, firstFreePageNo := rmNoPage,
          bitmapSize := (n + Bitmap.bitmapWidth - 1) / Bitmap.bitmapWidth }

structure RmFileHandle where
  fileHdr : RmFileHdr
  pages : Int → RmPage
  /-- `DiskManager::fd2pageno_` of the file. -/
  fd2pageno : Int
  cachedInsertPageNo : Int
  reservedInserts : Finset Int

/-- `new_page` and the page header and bitmap that `create_new_page_handle` writes. -/
def emptyPage (hdr : RmFileHdr) : RmPage :=
  { nextFreePageNo := rmNoPage
    numRecords := 0
    bitmap := Bitmap.init hdr.bitmapSize
    slots := List.replicate (pageSize - offsetPageHdr - sizeofRmPageHdr - hdr.bitmapSize) 0 }

/-- The constructor of `RmFileHandle`, on a file of that header and no pages. -/
def openFile (hdr : RmFileHdr) : RmFileHandle :=
  { fileHdr := hdr, pages := fun _ => emptyPage hdr, fd2pageno := hdr.numPages, cachedInsertPageNo := -1,
    reservedInserts := ∅ }

/-- `rid_key`: the page number in the upper half, the slot number as a `uint32_t` in the lower one. -/
def ridKey (rid : Rid) : Int := rid.pageNo * 2 ^ 32 + rid.slotNo % 2 ^ 32

/-- `memcpy` to the slot, `Bitmap::set` and `num_records++`. -/
def RmPage.put (p : RmPage) (recordSize slotNo : Nat) (buf : Bytes) : RmPage :=
  { p with
    slots := putBytes p.slots (slotNo * recordSize) buf
    bitmap := Bitmap.set p.bitmap slotNo
    numRecords := p.numRecords + 1 }

namespace RmFileHandle

def fetchPageHandle (h : RmFileHandle) (pageNo : Int) : Except RmError RmPage :=
  if h.fileHdr.numPages ≤ pageNo ∨ pageNo < 0 then .error (.pageNotExist pageNo) else .ok (h.pages pageNo)

def setPage (h : RmFileHandle) (pageNo : Int) (p : RmPage) : RmFileHandle :=
  { h with pages := Function.update h.pages pageNo p }

def setFirstFree (h : RmFileHandle) (pageNo : Int) : RmFileHandle :=
  { h with fileHdr := { h.fileHdr with firstFreePageNo := pageNo } }

/-! ## The insert page -/

/-- The loop of `find_free_slot_on_cached_page`, `start` being `slot_no + 1`. -/
def freeSlotFrom (h : RmFileHandle) : Nat → Nat → Option Nat
  | 0, _ => none
  | fuel + 1, start =>
      let n := h.fileHdr.numRecordsPerPage
      let slotNo := Bitmap.nextBit false (h.pages h.cachedInsertPageNo).bitmap n start
      if n ≤ slotNo then none
      else if ridKey ⟨h.cachedInsertPageNo, slotNo⟩ ∉ h.reservedInserts then some slotNo
      else freeSlotFrom h fuel (slotNo + 1)

/-- Every turn takes a later slot, so that one turn more than the page has slots is enough. -/
def findFreeSlotOnCachedPage (h : RmFileHandle) : Option Nat :=
  if h.cachedInsertPageNo < 0 then none else freeSlotFrom h (h.fileHdr.numRecordsPerPage + 1) 0

def createNewPageHandle (h : RmFileHandle) : RmFileHandle × Int :=
  ({ h.setPage h.fd2pageno (emptyPage h.fileHdr) with
      fd2pageno := h.fd2pageno + 1
      fileHdr := { h.fileHdr with numPages := h.fileHdr.numPages + 1 } }, h.fd2pageno)

/-- The end of `ensure_insert_page_cached`: a new page, in front of the free pages. -/
def openInsertPage (h : RmFileHandle) : RmFileHandle :=
  let (h, pageNo) := h.createNewPageHandle
  let h := { h with cachedInsertPageNo := pageNo }
  let h := h.setPage pageNo { h.pages pageNo with nextFreePageNo := h.fileHdr.firstFreePageNo }
  h.setFirstFree pageNo

def ensureInsertPageCached (h : RmFileHandle) : RmFileHandle × Except RmError Unit :=
  if h.findFreeSlotOnCachedPage.isSome then (h, .ok ())
  else
    let h := { h with cachedInsertPageNo := -1 }
    if h.fileHdr.firstFreePageNo ≠ rmNoPage then
      match h.fetchPageHandle h.fileHdr.firstFreePageNo with
      | .error e => (h, .error e)
      | .ok _ =>
          let h' := { h with cachedInsertPageNo := h.fileHdr.firstFreePageNo }
          if h'.findFreeSlotOnCachedPage.isSome then (h', .ok ()) else (h.openInsertPage, .ok ())
    else (h.openInsertPage, .ok ())

/-- The record is put on the cached page; a page that is then full leaves the cache and the head
of the free pages is set to its successor. -/
def fillCached (h : RmFileHandle) (slotNo : Nat) (buf : Bytes) : RmFileHandle :=
  let pageNo := h.cachedInsertPageNo
  let p := (h.pages pageNo).put h.fileHdr.recordSize slotNo buf
  let h := h.setPage pageNo p
  if p.numRecords = h.fileHdr.numRecordsPerPage then
    { h.setFirstFree p.nextFreePageNo with cachedInsertPageNo := -1 }
  else h

/-- The record is put on a page that was fetched for it. -/
def fillPage (h : RmFileHandle) (pageNo : Int) (slotNo : Nat) (buf : Bytes) : RmFileHandle :=
  let p := (h.pages pageNo).put h.fileHdr.recordSize slotNo buf
  let h := h.setPage pageNo p
  if p.numRecords = h.fileHdr.numRecordsPerPage then h.setFirstFree p.nextFreePageNo else h

/-! ## Operations -/

def insertRecord (h : RmFileHandle) (buf : Bytes) : RmFileHandle × Except RmError Rid :=
  match h.ensureInsertPageCached with
  | (h, .error e) => (h, .error e)
  | (h, .ok ()) =>
      match h.findFreeSlotOnCachedPage with
      | none => (h, .error (.internal "RmFileHandle::insert_record: no free slot"))
      | some slotNo => (h.fillCached slotNo buf, .ok ⟨h.cachedInsertPageNo, slotNo⟩)

def reserveInsertSlot (h : RmFileHandle) : RmFileHandle × Except RmError Rid :=
  match h.ensureInsertPageCached with
  | (h, .error e) => (h, .error e)
  | (h, .ok ()) =>
      match h.findFreeSlotOnCachedPage with
      | none => (h, .error (.internal "RmFileHandle::reserve_insert_slot: no free slot"))
      | some slotNo =>
          let rid : Rid := ⟨h.cachedInsertPageNo, slotNo⟩
          ({ h with reservedInserts := insert (ridKey rid) h.reservedInserts }, .ok rid)

def publishInsertSlot (h : RmFileHandle) (rid : Rid) (buf : Bytes) : RmFileHandle × Except RmError Unit :=
  if ridKey rid ∉ h.reservedInserts then
    (h, .error (.internal "RmFileHandle::publish_insert_slot: rid not reserved"))
  else
    let h := { h with reservedInserts := h.reservedInserts.erase (ridKey rid) }
    if h.cachedInsertPageNo = rid.pageNo ∧ 0 ≤ h.cachedInsertPageNo then
      (h.fillCached rid.slotNo.toNat buf, .ok ())
    else
      match h.fetchPageHandle rid.pageNo with
      | .error e => (h, .error e)
      | .ok _ => (h.fillPage rid.pageNo rid.slotNo.toNat buf, .ok ())

def cancelInsertSlot (h : RmFileHandle) (rid : Rid) : RmFileHandle :=
  { h with reservedInserts := h.reservedInserts.erase (ridKey rid) }

/-- `insert_record(rid, buf)`. -/
def insertRecordAt (h : RmFileHandle) (rid : Rid) (buf : Bytes) : RmFileHandle × Except RmError Unit :=
  match h.fetchPageHandle rid.pageNo with
  | .error e => (h, .error e)
  | .ok _ => (h.fillPage rid.pageNo rid.slotNo.toNat buf, .ok ())

def releasePageHandle (h : RmFileHandle) (pageNo : Int) : RmFileHandle :=
  let h := h.setPage pageNo { h.pages pageNo with nextFreePageNo := h.fileHdr.firstFreePageNo }
  h.setFirstFree pageNo

def deleteRecord (h : RmFileHandle) (rid : Rid) : RmFileHandle × Except RmError Unit :=
  match h.fetchPageHandle rid.pageNo with
  | .error e => (h, .error e)
  | .ok p =>
      if !Bitmap.isSet p.bitmap rid.slotNo.toNat then (h, .error (.recordNotFound rid.pageNo rid.slotNo))
      else
        let wasFull := decide (p.numRecords = h.fileHdr.numRecordsPerPage)
        let h := h.setPage rid.pageNo
          { p with bitmap := Bitmap.reset p.bitmap rid.slotNo.toNat, numRecords := p.numRecords - 1 }
        (if wasFull then h.releasePageHandle rid.pageNo else h, .ok ())

def updateRecord (h : RmFileHandle) (rid : Rid) (buf : Bytes) : RmFileHandle × Except RmError Unit :=
  match h.fetchPageHandle rid.pageNo with
  | .error e => (h, .error e)
  | .ok p =>
      if !Bitmap.isSet p.bitmap rid.slotNo.toNat then (h, .error (.recordNotFound rid.pageNo rid.slotNo))
      else
        (h.setPage rid.pageNo
          { p with slots := putBytes p.slots (rid.slotNo.toNat * h.fileHdr.recordSize) buf }, .ok ())

def getRecord (h : RmFileHandle) (rid : Rid) : Except RmError Bytes :=
  match h.fetchPageHandle rid.pageNo with
  | .error e => .error e
  | .ok p =>
      if !Bitmap.isSet p.bitmap rid.slotNo.toNat then .error (.recordNotFound rid.pageNo rid.slotNo)
      else .ok (getBytes p.slots (rid.slotNo.toNat * h.fileHdr.recordSize) h.fileHdr.recordSize)

end RmFileHandle

/-! ## The scan -/

namespace RmScan

/-- The loop of `next`; the first argument is how many pages are left from `rid.page_no` on. -/
def nextFrom (h : RmFileHandle) : Nat → Rid → Except RmError Rid
  | 0, rid => .ok rid
  | left + 1, rid =>
      match h.fetchPageHandle rid.pageNo with
      | .error e => .error e
      | .ok p =>
          let nextSlot := Bitmap.nextBit true p.bitmap h.fileHdr.numRecordsPerPage (rid.slotNo + 1).toNat
          if nextSlot < h.fileHdr.numRecordsPerPage then .ok ⟨rid.pageNo, nextSlot⟩
          else nextFrom h left ⟨rid.pageNo + 1, -1⟩

def next (h : RmFileHandle) (rid : Rid) : Except RmError Rid :=
  nextFrom h (h.fileHdr.numPages - rid.pageNo).toNat rid

/-- The constructor. -/
def start (h : RmFileHandle) : Except RmError Rid := next h ⟨rmFirstRecordPage, -1⟩

def isEnd (h : RmFileHandle) (rid : Rid) : Bool := decide (h.fileHdr.numPages ≤ rid.pageNo)

/-- `for (...; !is_end(); next())`: the record ids it gives, `none` when `fuel` is too small. -/
def ridsFrom (h : RmFileHandle) : Nat → Rid → Option (Except RmError (List Rid))
  | 0, _ => none
  | fuel + 1, rid =>
      if isEnd h rid then some (.ok [])
      else
        match next h rid with
        | .error e => some (.error e)
        | .ok rid' => (ridsFrom h fuel rid').map (Except.map (rid :: ·))

def rids (h : RmFileHandle) (fuel : Nat) : Option (Except RmError (List Rid)) :=
  match start h with
  | .error e => some (.error e)
  | .ok rid => ridsFrom h fuel rid

end RmScan

end Rmdb.Record
