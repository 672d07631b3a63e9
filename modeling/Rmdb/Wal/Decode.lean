import Mathlib
import Rmdb.Wal.Record
import Rmdb.Wal.RoundTrip

/-!
# Reading log records back

`At src offset b`: the bytes `b` stand at `offset` of `src`.  Each field is read back from where
it stands, and so each class of record from its own bytes; the length in the header is the number
of bytes that are written.
-/

namespace Rmdb.Wal

open Rmdb.Txn (Bytes getBytes getWord wordBytes)

/-! ## Fields at an offset -/

def At (src : Bytes) (offset : Nat) (b : Bytes) : Prop := ∃ more, src.drop offset = b ++ more

section

variable {src a b : Bytes} {offset : Nat}

theorem At.start (b rest : Bytes) : At (b ++ rest) 0 b := ⟨rest, rfl⟩

theorem At.left (h : At src offset (a ++ b)) : At src offset a := by
  obtain ⟨more, hmore⟩ := h
  exact ⟨b ++ more, by rw [hmore, List.append_assoc]⟩

theorem At.right (h : At src offset (a ++ b)) : At src (offset + a.length) b := by
  obtain ⟨more, hmore⟩ := h
  refine ⟨more, ?_⟩
  rw [List.append_assoc] at hmore
  exact drop_add_of_drop hmore

theorem At.getBytes (h : At src offset b) : getBytes src offset b.length = b := by
  obtain ⟨more, hmore⟩ := h
  exact getBytes_of_drop hmore

theorem At.getD (h : At src offset b) {i : Nat} (hi : i < b.length) : src.getD (offset + i) 0 = b.getD i 0 := by
  obtain ⟨more, hmore⟩ := h
  rw [List.getD_eq_getElem?_getD, ← List.getElem?_drop, hmore, List.getElem?_append_left hi,
    List.getD_eq_getElem?_getD]

theorem At.word {w : BitVec 32} (h : At src offset (wordBytes w)) : getWord src offset = w := by
  obtain ⟨more, hmore⟩ := h
  have hword : getWord (src.drop offset) 0 = w := by
    rw [hmore]
    exact Txn.getWord_wordBytes w more
  rw [Txn.getWord_drop] at hword
  exact hword

theorem At.long {w : BitVec 64} (h : At src offset (longBytes w)) : getLong src offset = w := by
  obtain ⟨more, hmore⟩ := h
  have hlong : getLong (src.drop offset) 0 = w := by
    rw [hmore]
    exact getLong_longBytes w more
  rw [getLong_drop] at hlong
  exact hlong

theorem At.size {n : Nat} (h : At src offset (u32Bytes n)) (hn : n < 2 ^ 32) : readSize src offset = n := by
  unfold readSize
  rw [h.word, BitVec.toNat_ofNat, Nat.mod_eq_of_lt hn]

theorem At.sizeT {n : Nat} (h : At src offset (u64Bytes n)) (hn : n < 2 ^ 32) : readSizeT src offset = n := by
  have hlo : getWord src offset = BitVec.ofNat 32 n := h.left.word
  have hhi : getWord src (offset + 4) = BitVec.ofNat 32 (n / 2 ^ 32) := h.right.word
  unfold readSizeT
  rw [hlo, hhi, BitVec.toNat_ofNat, BitVec.toNat_ofNat, Nat.div_eq_of_lt hn, Nat.mod_eq_of_lt hn]
  rfl

theorem At.rid {rid : RidBits} (h : At src offset (ridBitsBytes rid)) : readRid src offset = rid := by
  have hpage := h.left.word
  have hslot : getWord src (offset + 4) = rid.slotNo := h.right.word
  unfold readRid
  rw [hpage, hslot]

theorem At.half {w : BitVec 16} (h : At src offset (halfBytes w)) : readHalf src offset = w := by
  have hlo : src.getD (offset + 0) 0 = (halfBytes w).getD 0 0 := h.getD Nat.two_pos
  have hhi : src.getD (offset + 1) 0 = (halfBytes w).getD 1 0 := h.getD Nat.one_lt_two
  rw [Nat.add_zero] at hlo
  unfold readHalf
  rw [hlo, hhi]
  show w.extractLsb' 8 8 ++ w.extractLsb' 0 8 = w
  apply BitVec.eq_of_getLsbD_eq
  intro i hi
  simp only [BitVec.getLsbD_append, BitVec.getLsbD_extractLsb']
  by_cases h0 : i < 8
  · simp [h0]
  · simp only [h0, if_false]
    rw [decide_eq_true (by omega : i - 8 < 8), Bool.true_and]
    congr 1
    omega

theorem At.byte {n : Nat} (h : At src offset [UInt8.ofNat n]) (hn : n < 256) : (src.getD offset 0).toNat = n := by
  have hbyte : src.getD (offset + 0) 0 = [UInt8.ofNat n].getD 0 0 := h.getD Nat.one_pos
  rw [Nat.add_zero] at hbyte
  rw [hbyte]
  show (UInt8.ofNat n).toNat = n
  rw [UInt8.toNat_ofNat', Nat.mod_eq_of_lt hn]

/-- `RmRecord`: its size and its bytes. -/
theorem At.value {value : Bytes} (h : At src offset (valueBytes value)) (hsize : value.length < 2 ^ 32) :
    readSize src offset = value.length ∧ readValue src offset = value := by
  have hread : readSize src offset = value.length := h.left.size hsize
  refine ⟨hread, ?_⟩
  unfold readValue
  rw [hread]
  exact (h.right : At src (offset + 4) value).getBytes

theorem At.row {rid : RidBits} {tableName : Bytes} (h : At src offset (rowEnd rid tableName))
    (hname : tableName.length < 2 ^ 32) : readRid src offset = rid ∧ readTableName src offset = tableName := by
  unfold rowEnd at h
  rw [List.append_assoc] at h
  have hrest : At src (offset + 8) (u64Bytes tableName.length ++ tableName) := h.right
  have hsize := hrest.left.sizeT hname
  have hbytes : At src (offset + 16) tableName := hrest.right
  refine ⟨h.left.rid, ?_⟩
  unfold readTableName
  rw [hsize]
  exact hbytes.getBytes

end

/-! ## Headers -/

theorem LogRecordHdr.serialize_length (r : LogRecordHdr) : r.serialize.length = logHeaderSize := rfl

theorem At.hdr {src : Bytes} {r : LogRecordHdr} (h : At src 0 r.serialize) : LogRecordHdr.deserialize src = r := by
  unfold LogRecordHdr.serialize at h
  have hprev : getWord src offsetPrevLsn = r.prevLsn := h.right.word
  have htid : getLong src offsetLogTid = r.logTid := h.left.right.long
  have hlen : getWord src offsetLogTotLen = r.logTotLen := h.left.left.right.word
  have hlsn : getWord src offsetLsn = r.lsn := h.left.left.left.right.word
  have htype : getWord src 0 = r.logType := h.left.left.left.left.word
  unfold LogRecordHdr.deserialize
  rw [htype, hlsn, hlen, htid, hprev]

theorem At.type {src : Bytes} {r : LogRecordHdr} (h : At src 0 r.serialize) : getWord src 0 = r.logType :=
  congrArg LogRecordHdr.logType h.hdr

/-! ## Classes -/

section

variable {src : Bytes}

theorem InsertLogRecord.deserialize_at {r : InsertLogRecord} (h : At src 0 r.serialize)
    (hvalue : r.insertValue.length < 2 ^ 32) (hname : r.tableName.length < 2 ^ 32) :
    InsertLogRecord.deserialize src = r := by
  have hdata : At src offsetLogData (valueBytes r.insertValue ++ rowEnd r.rid r.tableName) := h.right
  obtain ⟨hsize, hbytes⟩ := hdata.left.value hvalue
  have hrow : At src (offsetLogData + r.insertValue.length + 4) (rowEnd r.rid r.tableName) := by
    have := hdata.right
    rwa [valueBytes, List.length_append, u32Bytes_length, Nat.add_comm 4, ← Nat.add_assoc] at this
  obtain ⟨hrid, htable⟩ := hrow.row hname
  simp only [InsertLogRecord.deserialize, hsize, hbytes, hrid, htable, (h.left : At src 0 r.toLogRecordHdr.serialize).hdr]

theorem DeleteLogRecord.deserialize_at {r : DeleteLogRecord} (h : At src 0 r.serialize)
    (hvalue : r.deleteValue.length < 2 ^ 32) (hname : r.tableName.length < 2 ^ 32) :
    DeleteLogRecord.deserialize src = r := by
  have hdata : At src offsetLogData (valueBytes r.deleteValue ++ rowEnd r.rid r.tableName) := h.right
  obtain ⟨hsize, hbytes⟩ := hdata.left.value hvalue
  have hrow : At src (offsetLogData + 4 + r.deleteValue.length) (rowEnd r.rid r.tableName) := by
    have := hdata.right
    rwa [valueBytes, List.length_append, u32Bytes_length, ← Nat.add_assoc] at this
  obtain ⟨hrid, htable⟩ := hrow.row hname
  simp only [DeleteLogRecord.deserialize, hsize, hbytes, hrid, htable, (h.left : At src 0 r.toLogRecordHdr.serialize).hdr]

theorem UpdateLogRecord.deserialize_at {r : UpdateLogRecord} (h : At src 0 r.serialize)
    (hold : r.oldValue.length < 2 ^ 32) (hnew : r.newValue.length < 2 ^ 32) (hname : r.tableName.length < 2 ^ 32) :
    UpdateLogRecord.deserialize src = r := by
  have hdata : At src offsetLogData (valueBytes r.oldValue ++ (valueBytes r.newValue ++ rowEnd r.rid r.tableName)) :=
    h.right
  obtain ⟨holdSize, holdBytes⟩ := hdata.left.value hold
  have hrest : At src (offsetLogData + 4 + r.oldValue.length) (valueBytes r.newValue ++ rowEnd r.rid r.tableName) := by
    have := hdata.right
    rwa [valueBytes, List.length_append, u32Bytes_length, ← Nat.add_assoc] at this
  obtain ⟨hnewSize, hnewBytes⟩ := hrest.left.value hnew
  have hrow : At src (offsetLogData + 4 + r.oldValue.length + (4 + r.newValue.length)) (rowEnd r.rid r.tableName) := by
    have := hrest.right
    rwa [valueBytes, List.length_append, u32Bytes_length] at this
  obtain ⟨hrid, htable⟩ := hrow.row hname
  simp only [UpdateLogRecord.deserialize, holdSize, holdBytes, hnewSize, hnewBytes, hrid, htable,
    (h.left : At src 0 r.toLogRecordHdr.serialize).hdr]

/-! ## Ranges -/

/-- As many old and new bytes as `len` says. -/
def DeltaRange.Ok (rg : DeltaRange) : Prop := rg.old.length = rg.len.toNat ∧ rg.new.length = rg.len.toNat

theorem DeltaRange.serialize_length {rg : DeltaRange} (h : rg.Ok) : rg.serialize.length = 4 + 2 * rg.len.toNat := by
  simp only [DeltaRange.serialize, halfBytes, List.length_append, List.length_cons, List.length_nil, h.1, h.2]
  omega

theorem readRanges_at : ∀ (ranges : List DeltaRange) (offset : Nat), (∀ rg ∈ ranges, rg.Ok) →
    At src offset (ranges.flatMap DeltaRange.serialize) → readRanges src ranges.length offset = ranges := by
  intro ranges
  induction ranges with
  | nil => exact fun _ _ _ => rfl
  | cons rg ranges ih =>
      intro offset hok h
      obtain ⟨hold, hnew⟩ := hok rg List.mem_cons_self
      have hcons : At src offset (rg.serialize ++ ranges.flatMap DeltaRange.serialize) := h
      have hrg : At src offset (halfBytes rg.off ++ (halfBytes rg.len ++ (rg.old ++ rg.new))) := hcons.left
      have hlen : At src (offset + 2) (halfBytes rg.len ++ (rg.old ++ rg.new)) := hrg.right
      have holdAt : At src (offset + 4) (rg.old ++ rg.new) := hlen.right
      have hnewAt : At src (offset + 4 + rg.len.toNat) rg.new := by
        rw [← hold]
        exact holdAt.right
      have hrest : At src (offset + 4 + rg.len.toNat + rg.len.toNat) (ranges.flatMap DeltaRange.serialize) := by
        have := hcons.right
        rw [DeltaRange.serialize_length ⟨hold, hnew⟩] at this
        rwa [show offset + 4 + rg.len.toNat + rg.len.toNat = offset + (4 + 2 * rg.len.toNat) by omega]
      have holdBytes : getBytes src (offset + 4) rg.len.toNat = rg.old := by
        rw [← hold]
        exact holdAt.left.getBytes
      have hnewBytes : getBytes src (offset + 4 + rg.len.toNat) rg.len.toNat = rg.new := by
        have hself := hnewAt.getBytes
        rwa [hnew] at hself
      rw [List.length_cons, readRanges]
      simp only [hrg.left.half, hlen.left.half, holdBytes, hnewBytes,
        ih _ (fun r hr => hok r (List.mem_cons_of_mem _ hr)) hrest]

theorem UpdateDeltaLogRecord.deserialize_at {r : UpdateDeltaLogRecord} (h : At src 0 r.serialize)
    (hname : r.tableName.length < 256) (hranges : r.ranges.length < 256) (hok : ∀ rg ∈ r.ranges, rg.Ok) :
    UpdateDeltaLogRecord.deserialize src = r := by
  have hdata : At src offsetLogData ([UInt8.ofNat r.tableName.length] ++ (r.tableName ++ (ridBitsBytes r.rid ++
    ([UInt8.ofNat r.ranges.length] ++ r.ranges.flatMap DeltaRange.serialize)))) := h.right
  have hlen := hdata.left.byte hname
  have htable : At src (offsetLogData + 1) (r.tableName ++ (ridBitsBytes r.rid ++
    ([UInt8.ofNat r.ranges.length] ++ r.ranges.flatMap DeltaRange.serialize))) := hdata.right
  have hrid := htable.right
  have hcount : At src (offsetLogData + 1 + r.tableName.length + 8)
    ([UInt8.ofNat r.ranges.length] ++ r.ranges.flatMap DeltaRange.serialize) := hrid.right
  have hn := hcount.left.byte hranges
  have hread := readRanges_at r.ranges (offsetLogData + 1 + r.tableName.length + 8 + 1) hok hcount.right
  simp only [UpdateDeltaLogRecord.deserialize, hlen, hn, hread, htable.left.getBytes, hrid.left.rid,
    (h.left : At src 0 r.toLogRecordHdr.serialize).hdr]

end

/-! ## `wal_byte_diff` -/

theorem firstDiff_lt {a b : Bytes} {lo hi i : Nat} (h : firstDiff a b lo hi = some i) : lo ≤ i ∧ i < hi := by
  have hmem := List.mem_of_find?_eq_some h
  rw [List.mem_range'_1] at hmem
  omega

theorem extendDiff_le (a b : Bytes) (n : Nat) : ∀ fuel stop, stop ≤ n →
    stop ≤ extendDiff a b n fuel stop ∧ extendDiff a b n fuel stop ≤ n := by
  intro fuel
  induction fuel with
  | zero => exact fun stop h => ⟨le_rfl, h⟩
  | succ fuel ih =>
      intro stop hle
      rw [extendDiff]
      by_cases hend : n ≤ stop
      · rw [if_pos hend]
        exact ⟨le_rfl, hle⟩
      · rw [if_neg hend]
        by_cases hne : a.getD stop 0 != b.getD stop 0
        · rw [if_pos hne]
          have := ih (stop + 1) (by omega)
          omega
        · rw [if_neg hne]
          cases hlook : firstDiff a b stop (min (stop + 8) n) with
          | none => exact ⟨le_rfl, hle⟩
          | some look =>
              have hlt := firstDiff_lt hlook
              have := ih (look + 1) (by omega)
              simp only
              omega

/-- At most 8 ranges, none of which passes the end. -/
theorem diffFrom_spec (a b : Bytes) (n : Nat) : ∀ fuel i nr ds, nr ≤ 8 → diffFrom a b n fuel i nr = some ds →
    ds.length + nr ≤ 8 ∧ ∀ d ∈ ds, d.1 + d.2 ≤ n := by
  intro fuel
  induction fuel with
  | zero =>
      intro i nr ds hnr h
      cases h
      exact ⟨by simpa using hnr, fun d hd => absurd hd List.not_mem_nil⟩
  | succ fuel ih =>
      intro i nr ds hnr h
      rw [diffFrom] at h
      cases hfirst : firstDiff a b i n with
      | none =>
          rw [hfirst] at h
          cases h
          exact ⟨by simpa using hnr, fun d hd => absurd hd List.not_mem_nil⟩
      | some start =>
          rw [hfirst] at h
          have hlt := firstDiff_lt hfirst
          have hstop := extendDiff_le a b n n (start + 1) (by omega)
          simp only at h
          by_cases hmany : 8 ≤ nr
          · rw [if_pos hmany] at h
            cases h
          · rw [if_neg hmany] at h
            obtain ⟨rest, hrest, rfl⟩ := Option.map_eq_some_iff.1 h
            obtain ⟨hlen, hin⟩ := ih _ (nr + 1) rest (by omega) hrest
            refine ⟨by rw [List.length_cons]; omega, fun d hd => ?_⟩
            rcases List.mem_cons.1 hd with rfl | hd
            · show start + (extendDiff a b n n (start + 1) - start) ≤ n
              omega
            · exact hin d hd

theorem cutRange_ok {old new : Bytes} {n : Nat} (hold : old.length = n) (hnew : new.length = n) {d : Nat × Nat}
    (hd : d.1 + d.2 ≤ n) : (cutRange old new d).Ok := by
  have hoff : (BitVec.ofNat 16 d.1).toNat ≤ d.1 := by
    rw [BitVec.toNat_ofNat]
    exact Nat.mod_le _ _
  have hlen : (BitVec.ofNat 16 d.2).toNat ≤ d.2 := by
    rw [BitVec.toNat_ofNat]
    exact Nat.mod_le _ _
  exact ⟨Txn.getBytes_length (by omega), Txn.getBytes_length (by omega)⟩

/-- A useful record: its ranges are those of the difference, and its length is that of the payload. -/
theorem UpdateDeltaLogRecord.new_of_useful {txnId : BitVec 64} {old new : Bytes} {recSize : Nat} {rid : RidBits}
    {tableName : Bytes} (hold : old.length = recSize) (hnew : new.length = recSize)
    (huse : (UpdateDeltaLogRecord.new txnId old new recSize rid tableName).useful = true) :
    let r := UpdateDeltaLogRecord.new txnId old new recSize rid tableName
    r.logType = typeUpdateDelta ∧ r.tableName = tableName.take 255 ∧ r.ranges.length ≤ 8 ∧
      (∀ rg ∈ r.ranges, rg.Ok) ∧ deltaPayload r.tableName r.ranges < fullPayload (tableName.take 255) recSize * 2 / 3 ∧
      r.logTotLen = BitVec.ofNat 32 (logHeaderSize + deltaPayload r.tableName r.ranges) := by
  unfold UpdateDeltaLogRecord.new at huse ⊢
  cases hdiff : walByteDiff old new recSize with
  | none =>
      simp only [hdiff] at huse
      cases huse
  | some ds =>
      cases ds with
      | nil =>
          simp only [hdiff] at huse
          cases huse
      | cons d ds =>
          simp only [hdiff] at huse ⊢
          obtain ⟨hlen, hin⟩ := diffFrom_spec old new recSize _ 0 0 _ (Nat.zero_le 8) hdiff
          by_cases hbig : fullPayload (tableName.take 255) recSize * 2 / 3 ≤
              deltaPayload (tableName.take 255) ((d :: ds).map (cutRange old new))
          · rw [if_pos hbig] at huse
            cases huse
          · rw [if_neg hbig]
            refine ⟨rfl, rfl, ?_, fun rg hrg => ?_, not_le.1 hbig, rfl⟩
            · show ((d :: ds).map (cutRange old new)).length ≤ 8
              rw [List.length_map]
              omega
            · obtain ⟨d', hd', rfl⟩ := List.mem_map.1 hrg
              exact cutRange_ok hold hnew (hin d' hd')

/-! ## The round trip -/

namespace WalRecord

theorem deserialize_insert {src : Bytes} (h : getWord src 0 = typeInsert) :
    deserialize src = .insert (InsertLogRecord.deserialize src) := if_pos h

theorem deserialize_delete {src : Bytes} (h : getWord src 0 = typeDelete) :
    deserialize src = .delete (DeleteLogRecord.deserialize src) := by
  have hne : typeDelete ≠ typeInsert := by decide
  unfold deserialize
  simp only [h, if_neg hne, if_true]

theorem deserialize_update {src : Bytes} (h : getWord src 0 = typeUpdate) :
    deserialize src = .update (UpdateLogRecord.deserialize src) := by
  have hne : typeUpdate ≠ typeInsert ∧ typeUpdate ≠ typeDelete := by decide
  unfold deserialize
  simp only [h, if_neg hne.1, if_neg hne.2, if_true]

theorem deserialize_updateDelta {src : Bytes} (h : getWord src 0 = typeUpdateDelta) :
    deserialize src = .updateDelta (UpdateDeltaLogRecord.deserialize src) := by
  have hne : typeUpdateDelta ≠ typeInsert ∧ typeUpdateDelta ≠ typeDelete ∧ typeUpdateDelta ≠ typeUpdate := by decide
  unfold deserialize
  simp only [h, if_neg hne.1, if_neg hne.2.1, if_neg hne.2.2, if_true]

/-- A type of a record that has a header only. -/
def HeaderOnly (ty : BitVec 32) : Prop := ty = typeBegin ∨ ty = typeCommit ∨ ty = typeAbort ∨ ty = typeCkpt

theorem deserialize_header {src : Bytes} {ty : BitVec 32} (hty : HeaderOnly ty) (h : getWord src 0 = ty) :
    deserialize src = .header (LogRecordHdr.deserialize src) := by
  have hne : ty ≠ typeInsert ∧ ty ≠ typeDelete ∧ ty ≠ typeUpdate ∧ ty ≠ typeUpdateDelta := by
    rcases hty with rfl | rfl | rfl | rfl
    · decide
    · decide
    · decide
    · decide
  unfold deserialize
  simp only [h, if_neg hne.1, if_neg hne.2.1, if_neg hne.2.2.1, if_neg hne.2.2.2]

theorem roundTrips_header {r : LogRecordHdr} (htype : HeaderOnly r.logType) (hlen : r.logTotLen = BitVec.ofNat 32 logHeaderSize) :
    RoundTrips (.header r) := by
  refine ⟨?_, fun rest => ?_⟩
  · show logHeaderSize = r.logTotLen.toNat
    rw [hlen]
    rfl
  · have h : At (r.serialize ++ rest) 0 r.serialize := At.start _ rest
    exact (deserialize_header htype h.type).trans (congrArg WalRecord.header h.hdr)

theorem roundTrips_insert {r : InsertLogRecord} (htype : r.logType = typeInsert)
    (hlen : r.logTotLen = BitVec.ofNat 32 (logHeaderSize + 4 + r.insertValue.length + 8 + (8 + r.tableName.length)))
    (hfit : logHeaderSize + 4 + r.insertValue.length + 8 + (8 + r.tableName.length) < 2 ^ 31) :
    RoundTrips (.insert r) := by
  refine ⟨?_, fun rest => ?_⟩
  · show r.serialize.length = r.logTotLen.toNat
    rw [hlen, BitVec.toNat_ofNat, Nat.mod_eq_of_lt (by omega)]
    simp only [InsertLogRecord.serialize, valueBytes, rowEnd, ridBitsBytes, u64Bytes, List.length_append,
      LogRecordHdr.serialize_length, u32Bytes_length, wordBytes_length]
    omega
  · have h : At (r.serialize ++ rest) 0 r.serialize := At.start _ rest
    have htype' := (h.left : At _ 0 r.toLogRecordHdr.serialize).type.trans htype
    exact (deserialize_insert htype').trans <| congrArg WalRecord.insert (InsertLogRecord.deserialize_at h (by omega) (by omega))

theorem roundTrips_delete {r : DeleteLogRecord} (htype : r.logType = typeDelete)
    (hlen : r.logTotLen = BitVec.ofNat 32 (logHeaderSize + (4 + r.deleteValue.length + 8) + (8 + r.tableName.length)))
    (hfit : logHeaderSize + 4 + r.deleteValue.length + 8 + (8 + r.tableName.length) < 2 ^ 31) :
    RoundTrips (.delete r) := by
  refine ⟨?_, fun rest => ?_⟩
  · show r.serialize.length = r.logTotLen.toNat
    rw [hlen, BitVec.toNat_ofNat, Nat.mod_eq_of_lt (by omega)]
    simp only [DeleteLogRecord.serialize, valueBytes, rowEnd, ridBitsBytes, u64Bytes, List.length_append,
      LogRecordHdr.serialize_length, u32Bytes_length, wordBytes_length]
    omega
  · have h : At (r.serialize ++ rest) 0 r.serialize := At.start _ rest
    have htype' := (h.left : At _ 0 r.toLogRecordHdr.serialize).type.trans htype
    exact (deserialize_delete htype').trans <| congrArg WalRecord.delete (DeleteLogRecord.deserialize_at h (by omega) (by omega))

theorem roundTrips_update {r : UpdateLogRecord} (htype : r.logType = typeUpdate)
    (hlen : r.logTotLen = BitVec.ofNat 32
      (logHeaderSize + (4 + r.oldValue.length) + (4 + r.newValue.length) + 8 + (8 + r.tableName.length)))
    (hfit : logHeaderSize + (4 + r.oldValue.length) + (4 + r.newValue.length) + 8 + (8 + r.tableName.length) < 2 ^ 31) :
    RoundTrips (.update r) := by
  refine ⟨?_, fun rest => ?_⟩
  · show r.serialize.length = r.logTotLen.toNat
    rw [hlen, BitVec.toNat_ofNat, Nat.mod_eq_of_lt (by omega)]
    simp only [UpdateLogRecord.serialize, valueBytes, rowEnd, ridBitsBytes, u64Bytes, List.length_append,
      LogRecordHdr.serialize_length, u32Bytes_length, wordBytes_length]
    omega
  · have h : At (r.serialize ++ rest) 0 r.serialize := At.start _ rest
    have htype' := (h.left : At _ 0 r.toLogRecordHdr.serialize).type.trans htype
    exact (deserialize_update htype').trans <| congrArg WalRecord.update (UpdateLogRecord.deserialize_at h (by omega) (by omega) (by omega))

theorem ranges_serialize_length {ranges : List DeltaRange} (hok : ∀ rg ∈ ranges, rg.Ok) :
    (ranges.flatMap DeltaRange.serialize).length = (ranges.map fun rg => 4 + 2 * rg.len.toNat).sum := by
  rw [List.length_flatMap]
  congr 1
  exact List.map_congr_left fun rg hrg => DeltaRange.serialize_length (hok rg hrg)

theorem roundTrips_updateDelta {r : UpdateDeltaLogRecord} (htype : r.logType = typeUpdateDelta)
    (hname : r.tableName.length < 256) (hranges : r.ranges.length < 256) (hok : ∀ rg ∈ r.ranges, rg.Ok)
    (hlen : r.logTotLen = BitVec.ofNat 32 (logHeaderSize + deltaPayload r.tableName r.ranges))
    (hfit : deltaPayload r.tableName r.ranges < 2 ^ 31) : RoundTrips (.updateDelta r) := by
  refine ⟨?_, fun rest => ?_⟩
  · show r.serialize.length = r.logTotLen.toNat
    have hhdr : logHeaderSize = 24 := rfl
    rw [hlen, BitVec.toNat_ofNat, Nat.mod_eq_of_lt (by omega)]
    simp only [UpdateDeltaLogRecord.serialize, ridBitsBytes, deltaPayload, List.length_append, List.length_singleton,
      LogRecordHdr.serialize_length, wordBytes_length, ranges_serialize_length hok]
    omega
  · have h : At (r.serialize ++ rest) 0 r.serialize := At.start _ rest
    have htype' := (h.left : At _ 0 r.toLogRecordHdr.serialize).type.trans htype
    exact (deserialize_updateDelta htype').trans <| congrArg WalRecord.updateDelta (UpdateDeltaLogRecord.deserialize_at h hname hranges hok)

end WalRecord

/-- Every record that a constructor builds for the log, with the numbers it is given there, is read
back from the bytes it is written as. -/
theorem roundTrips_make (a : NewRecord) (lsn prevLsn : BitVec 32) (h : a.Loggable) :
    (a.make.stamp lsn prevLsn).RoundTrips := by
  cases a with
  | begin txnId => exact WalRecord.roundTrips_header (.inl rfl) rfl
  | commit txnId => exact WalRecord.roundTrips_header (.inr (.inl rfl)) rfl
  | abort txnId => exact WalRecord.roundTrips_header (.inr (.inr (.inl rfl))) rfl
  | ckpt => exact WalRecord.roundTrips_header (.inr (.inr (.inr rfl))) rfl
  | insert txnId value rid tableName => exact WalRecord.roundTrips_insert rfl rfl h
  | delete txnId value rid tableName => exact WalRecord.roundTrips_delete rfl rfl h
  | update txnId old new rid tableName => exact WalRecord.roundTrips_update rfl rfl h
  | updateDelta txnId old new recSize rid tableName =>
      obtain ⟨hold, hnew, hfit, huse⟩ := h
      obtain ⟨htype, hname, hranges, hok, hsmall, hlen⟩ := UpdateDeltaLogRecord.new_of_useful hold hnew huse
      refine WalRecord.roundTrips_updateDelta htype ?_ ?_ hok hlen ?_
      · show (UpdateDeltaLogRecord.new txnId old new recSize rid tableName).tableName.length < 256
        rw [hname, List.length_take]
        omega
      · show (UpdateDeltaLogRecord.new txnId old new recSize rid tableName).ranges.length < 256
        omega
      · show deltaPayload (UpdateDeltaLogRecord.new txnId old new recSize rid tableName).tableName
          (UpdateDeltaLogRecord.new txnId old new recSize rid tableName).ranges < 2 ^ 31
        omega

/-- A row of 40 bytes in which two bytes change. -/
def narrowUpdate : NewRecord :=
  .updateDelta 7 (List.replicate 40 1) ([9] ++ List.replicate 38 1 ++ [9]) 40 ⟨1, 2⟩ [116]

theorem narrowUpdate_loggable : narrowUpdate.Loggable :=
  ⟨by decide, by decide, by decide, by decide +kernel⟩

theorem roundTrips_make_narrow : (narrowUpdate.make.stamp 5 4).RoundTrips :=
  roundTrips_make narrowUpdate 5 4 narrowUpdate_loggable

/-- An `UPDATE_DELTA` record that is not `useful` says 24 bytes and is written with 35. -/
theorem not_roundTrips_unchanged :
    ¬ ((NewRecord.updateDelta 7 [1] [1] 1 ⟨1, 2⟩ [116]).make.stamp 5 4).RoundTrips := by
  rintro ⟨hlen, -⟩
  revert hlen
  decide +kernel

/-! ## The records of the transaction manager -/

def Entry.hdr (e : Entry) : LogRecordHdr :=
  { logType := BitVec.ofNat 32 (logType e.record)
    lsn := BitVec.ofInt 32 e.lsn
    logTotLen := BitVec.ofNat 32 (logTotLen e.record)
    logTid := BitVec.ofInt 64 (logTid e.record)
    prevLsn := BitVec.ofInt 32 e.prevLsn }

def toRidBits (rid : Index.Rid) : RidBits := ⟨BitVec.ofInt 32 rid.pageNo, BitVec.ofInt 32 rid.slotNo⟩

def toDeltaRange (rg : Nat × Bytes × Bytes) : DeltaRange :=
  { off := BitVec.ofNat 16 rg.1, len := BitVec.ofNat 16 rg.2.1.length, old := rg.2.1, new := rg.2.2 }

/-- The record of a class that stands for an entry. -/
def Entry.toWal (e : Entry) : WalRecord :=
  match e.record with
  | .insert _ r value =>
      .insert { e.hdr with insertValue := value, rid := toRidBits r.rid, tableName := nameBytes r.tab }
  | .delete _ r value =>
      .delete { e.hdr with deleteValue := value, rid := toRidBits r.rid, tableName := nameBytes r.tab }
  | .update _ r old new =>
      .update { e.hdr with oldValue := old, newValue := new, rid := toRidBits r.rid, tableName := nameBytes r.tab }
  | .updateDelta _ r ranges =>
      .updateDelta { e.hdr with rid := toRidBits r.rid, tableName := shortName r.tab, ranges := ranges.map toDeltaRange }
  | .begin _ | .commit _ | .abort _ | .ckpt => .header e.hdr

theorem halfBytes_ofNat (n : Nat) : halfBytes (BitVec.ofNat 16 n) = u16Bytes n := by
  have hlo : (⟨(BitVec.ofNat 16 n).extractLsb' 0 8⟩ : UInt8) = UInt8.ofNat n := by
    apply UInt8.toNat_inj.1
    rw [UInt8.toNat_ofNat']
    show ((BitVec.ofNat 16 n).extractLsb' 0 8).toNat = n % 2 ^ 8
    rw [BitVec.extractLsb'_toNat, BitVec.toNat_ofNat, Nat.shiftRight_zero]
    omega
  have hhi : (⟨(BitVec.ofNat 16 n).extractLsb' 8 8⟩ : UInt8) = UInt8.ofNat (n / 256) := by
    apply UInt8.toNat_inj.1
    rw [UInt8.toNat_ofNat']
    show ((BitVec.ofNat 16 n).extractLsb' 8 8).toNat = n / 256 % 2 ^ 8
    rw [BitVec.extractLsb'_toNat, BitVec.toNat_ofNat, Nat.shiftRight_eq_div_pow]
    omega
  rw [halfBytes, u16Bytes, hlo, hhi]

theorem serialize_toDeltaRange (rg : Nat × Bytes × Bytes) : (toDeltaRange rg).serialize = rangeBytes rg := by
  rw [DeltaRange.serialize, rangeBytes, toDeltaRange, halfBytes_ofNat, halfBytes_ofNat, List.append_assoc,
    List.append_assoc]

/-- The two ways to write a record agree. -/
theorem serialize_toWal (e : Entry) : e.toWal.serialize = e.serialize := by
  obtain ⟨lsn, prevLsn, record⟩ := e
  cases record with
  | begin t | commit t | abort t | ckpt =>
      simp only [Entry.toWal, WalRecord.serialize, LogRecordHdr.serialize, Entry.hdr, Entry.serialize, payload,
        u32Bytes, i32Bytes, i64Bytes, List.append_nil]
  | insert t r value =>
      simp only [Entry.toWal, WalRecord.serialize, InsertLogRecord.serialize, LogRecordHdr.serialize, Entry.hdr,
        Entry.serialize, payload, rowEnd, rowBytes, ridBitsBytes, ridBytes, toRidBits, u32Bytes, i32Bytes, i64Bytes]
  | delete t r value =>
      simp only [Entry.toWal, WalRecord.serialize, DeleteLogRecord.serialize, LogRecordHdr.serialize, Entry.hdr,
        Entry.serialize, payload, rowEnd, rowBytes, ridBitsBytes, ridBytes, toRidBits, u32Bytes, i32Bytes, i64Bytes]
  | update t r old new =>
      simp only [Entry.toWal, WalRecord.serialize, UpdateLogRecord.serialize, LogRecordHdr.serialize, Entry.hdr,
        Entry.serialize, payload, rowEnd, rowBytes, ridBitsBytes, ridBytes, toRidBits, u32Bytes, i32Bytes, i64Bytes,
        List.append_assoc]
  | updateDelta t r ranges =>
      have hranges : (ranges.map toDeltaRange).flatMap DeltaRange.serialize = ranges.flatMap rangeBytes := by
        rw [List.flatMap_map]
        exact congrArg (ranges.flatMap ·) (funext serialize_toDeltaRange)
      simp only [Entry.toWal, WalRecord.serialize, UpdateDeltaLogRecord.serialize, LogRecordHdr.serialize, Entry.hdr,
        Entry.serialize, payload, ridBitsBytes, ridBytes, toRidBits, u32Bytes, i32Bytes, i64Bytes, List.append_assoc, hranges,
        List.length_map]

/-- What the transaction manager logs: at most 8 ranges, with as many old as new bytes. -/
def RangesOk : Txn.LogRecord → Prop
  | .updateDelta _ _ ranges =>
      ranges.length ≤ maxRanges ∧ ∀ rg ∈ ranges, rg.2.1.length < 2 ^ 16 ∧ rg.2.2.length = rg.2.1.length
  | _ => True

/-- The recovery reads an entry back from the bytes of the log. -/
theorem deserialize_entry {e : Entry} (hfit : logTotLen e.record < 2 ^ 31) (hranges : RangesOk e.record)
    (rest : Bytes) : WalRecord.deserialize (e.serialize ++ rest) = e.toWal := by
  rw [← serialize_toWal]
  obtain ⟨lsn, prevLsn, record⟩ := e
  cases record with
  | begin t => exact (WalRecord.roundTrips_header (.inl rfl) rfl).2 rest
  | commit t => exact (WalRecord.roundTrips_header (.inr (.inl rfl)) rfl).2 rest
  | abort t => exact (WalRecord.roundTrips_header (.inr (.inr (.inl rfl))) rfl).2 rest
  | ckpt => exact (WalRecord.roundTrips_header (.inr (.inr (.inr rfl))) rfl).2 rest
  | insert t r value =>
      refine (WalRecord.roundTrips_insert rfl rfl ?_).2 rest
      simp only [logTotLen] at hfit ⊢
      exact hfit
  | delete t r value =>
      refine (WalRecord.roundTrips_delete rfl rfl ?_).2 rest
      simp only [logTotLen] at hfit ⊢
      omega
  | update t r old new =>
      refine (WalRecord.roundTrips_update rfl rfl ?_).2 rest
      simp only [logTotLen] at hfit ⊢
      exact hfit
  | updateDelta t r ranges =>
      obtain ⟨hcount, hall⟩ := hranges
      have hok : ∀ rg ∈ ranges.map toDeltaRange, rg.Ok := by
        intro rg hrg
        obtain ⟨rg', hrg', rfl⟩ := List.mem_map.1 hrg
        obtain ⟨hsmall, hsame⟩ := hall rg' hrg'
        have hlen : (BitVec.ofNat 16 rg'.2.1.length).toNat = rg'.2.1.length := by
          rw [BitVec.toNat_ofNat, Nat.mod_eq_of_lt hsmall]
        exact ⟨hlen.symm, hsame.trans hlen.symm⟩
      have hsum : ((ranges.map toDeltaRange).map fun rg => 4 + 2 * rg.len.toNat).sum =
          (ranges.map fun rg => 4 + rg.2.1.length + rg.2.2.length).sum := by
        rw [List.map_map]
        congr 1
        refine List.map_congr_left fun rg hrg => ?_
        obtain ⟨hsmall, hsame⟩ := hall rg hrg
        show 4 + 2 * (BitVec.ofNat 16 rg.2.1.length).toNat = _
        rw [BitVec.toNat_ofNat, Nat.mod_eq_of_lt hsmall, hsame]
        omega
      have hpayload : logTotLen (.updateDelta t r ranges) =
          logHeaderSize + deltaPayload (shortName r.tab) (ranges.map toDeltaRange) := by
        rw [logTotLen, deltaPayload, hsum]
      refine (WalRecord.roundTrips_updateDelta rfl ?_ ?_ hok ?_ ?_).2 rest
      · show (shortName r.tab).length < 256
        rw [shortName, List.length_take]
        omega
      · show (ranges.map toDeltaRange).length < 256
        rw [List.length_map]
        unfold maxRanges at hcount
        omega
      · exact congrArg (BitVec.ofNat 32) hpayload
      · show deltaPayload (shortName r.tab) (ranges.map toDeltaRange) < 2 ^ 31
        simp only at hfit
        omega

end Rmdb.Wal
