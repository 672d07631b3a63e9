import Rmdb.Wal.Scan

/-!
# What the flush worker frames, the scan reads

A log file is what is before the restart offset, complete batches, and a torn one followed by
the zeros of the preallocated space.  The scans of `analyze` and `redo` hand out the records
of the complete batches, in order and each once.
-/

namespace Rmdb.Wal

open Rmdb.Txn

variable {file r body more torn : Bytes} {s : Scanner} {lim pos : Nat}

/-! ## One record -/

/-- The bytes of a record: a header that tells their number. -/
structure IsRecord (r : Bytes) : Prop where
  header : logHeaderSize ≤ r.length
  totLen : (getWord r offsetLogTotLen).toNat = r.length

theorem isRecord_serialize {e : Entry} (h : e.serialize.length < 2 ^ 32) : IsRecord e.serialize := by
  have hlen := serialize_length e
  refine ⟨by rw [hlen]; exact logTotLen_ge e.record, ?_⟩
  have hword : getWord e.serialize (8 + 0) = BitVec.ofNat 32 (logTotLen e.record) := by
    have h8 : (u32Bytes (logType e.record) ++ i32Bytes e.lsn).length = 8 := rfl
    unfold Entry.serialize
    rw [List.append_assoc, List.append_assoc, List.append_assoc, getWord_append_right h8]
    exact getWord_wordBytes _ _
  show (getWord e.serialize (8 + 0)).toNat = _
  rw [hword, BitVec.toNat_ofNat, hlen, Nat.mod_eq_of_lt (by omega)]

theorem getBytes_of_drop (h : file.drop pos = body ++ more) : getBytes file pos body.length = body := by
  unfold getBytes
  rw [h, List.take_left]

theorem oneAt_record (hr : IsRecord r) (h : file.drop pos = r ++ more) (hlim : pos + r.length ≤ lim) :
    oneAt file lim pos = some r := by
  have hword : getWord file (pos + offsetLogTotLen) = getWord r offsetLogTotLen := by
    have hh := hr.header
    rw [← getWord_drop, h, getWord_append_left]
    show 8 + 4 ≤ r.length
    unfold logHeaderSize at hh
    omega
  have hh := hr.header
  unfold oneAt
  rw [hword, hr.totLen, if_neg (by omega), if_neg (by omega), getBytes_of_drop h]

theorem drop_add_of_drop (h : file.drop pos = body ++ more) : file.drop (pos + body.length) = more := by
  rw [← List.drop_drop, h, List.drop_left]

theorem scanRecords_none (hs : s.Ok file) (hfile : file.length < 2 ^ 31) (hlim : s.logEnd = lim)
    (hend : lim ≤ file.length) (hnone : oneAt file lim pos = none) (fuel : Nat) :
    ∃ s', scanRecords file (fuel + 1) s pos = some (s', (pos : Int), []) ∧ s'.Ok file ∧
      s'.logEnd = lim := by
  obtain ⟨s', h', hs', hl'⟩ := readOne_eq hs hfile hlim hend pos
  refine ⟨s', ?_, hs', hl'⟩
  rw [scanRecords, h', hnone]
  rfl

/-- The records of a body, read to its end. -/
theorem scanRecords_eq (hfile : file.length < 2 ^ 31) (hend : lim ≤ file.length) :
    ∀ (rs : List Bytes) (fuel : Nat) (s : Scanner) (pos : Nat), rs.length < fuel → s.Ok file →
      s.logEnd = lim → (∀ r ∈ rs, IsRecord r) → file.drop pos = rs.flatten ++ more →
      pos + rs.flatten.length = lim →
      ∃ s', scanRecords file fuel s pos = some (s', (lim : Int), rs) ∧ s'.Ok file ∧ s'.logEnd = lim := by
  intro rs
  induction rs with
  | nil =>
      intro fuel s pos hfuel hs hlim _ _ hpos
      obtain ⟨fuel, rfl⟩ := Nat.exists_eq_add_one_of_ne_zero (Nat.ne_of_gt hfuel)
      have hpos' : pos = lim := hpos
      have hnone : oneAt file lim pos = none := by
        unfold oneAt
        rw [if_pos]
        unfold logHeaderSize
        omega
      obtain ⟨s', h', hs'⟩ := scanRecords_none hs hfile hlim hend hnone fuel
      exact ⟨s', by rw [h', hpos'], hs'⟩
  | cons r rs ih =>
      intro fuel s pos hfuel hs hlim hrs hdrop hpos
      obtain ⟨fuel, rfl⟩ := Nat.exists_eq_add_one_of_ne_zero (Nat.ne_of_gt (Nat.zero_lt_of_lt hfuel))
      rw [List.flatten_cons, List.append_assoc] at hdrop
      rw [List.flatten_cons, List.length_append] at hpos
      obtain ⟨s1, h1, hs1, hl1⟩ := readOne_eq hs hfile hlim hend pos
      rw [oneAt_record (hrs r List.mem_cons_self) hdrop (by omega)] at h1
      have hfuel' : rs.length < fuel := by
        rw [List.length_cons] at hfuel
        omega
      obtain ⟨s', h', hs', hl'⟩ := ih fuel s1 (pos + r.length) hfuel' hs1 hl1
        (fun r' hr' => hrs r' (List.mem_cons_of_mem _ hr')) (drop_add_of_drop hdrop) (by omega)
      refine ⟨s', ?_, hs', hl'⟩
      rw [Nat.cast_add] at h'
      rw [scanRecords, h1, Option.bind_some]
      dsimp only
      rw [h']
      rfl

/-! ## One batch -/

theorem frame_words (body more : Bytes) : getWord (frame body ++ more) 0 = walBatchMagic ∧
    getWord (frame body ++ more) 4 = BitVec.ofNat 32 body.length ∧
    getWord (frame body ++ more) 8 = walCrc32 body := by
  have h4 : (wordBytes walBatchMagic).length = 4 := rfl
  have h8 : (wordBytes walBatchMagic ++ u32Bytes body.length).length = 8 := rfl
  unfold frame
  refine ⟨getWord_wordBytes _ _, ?_, ?_⟩
  · show getWord _ (4 + 0) = _
    rw [List.append_assoc, List.append_assoc, List.append_assoc, getWord_append_right h4]
    exact getWord_wordBytes _ _
  · show getWord _ (8 + 0) = _
    rw [List.append_assoc, List.append_assoc, getWord_append_right h8]
    exact getWord_wordBytes _ _

theorem drop_frame_body (h : file.drop pos = frame body ++ more) :
    file.drop (pos + walBatchHdrSize) = body ++ more := by
  have hhdr : (wordBytes walBatchMagic ++ u32Bytes body.length ++ wordBytes (walCrc32 body)).length =
      walBatchHdrSize := rfl
  rw [← List.drop_drop, h, frame, List.append_assoc, ← hhdr, List.drop_left]

theorem batchAt_frame (h : file.drop pos = frame body ++ more) (hbody : 0 < body.length)
    (hlim : pos + (frame body).length ≤ lim) (hsize : body.length < 2 ^ 32) :
    batchAt file lim pos = some body.length := by
  obtain ⟨h0, h4, h8⟩ := frame_words body more
  rw [frame_length] at hlim
  have hmagic : getWord file pos = walBatchMagic := by
    rw [← Nat.add_zero pos, ← getWord_drop, h, h0]
  have hlen : (getWord file (pos + 4)).toNat = body.length := by
    rw [← getWord_drop, h, h4, BitVec.toNat_ofNat, Nat.mod_eq_of_lt hsize]
  have hcrc : getWord file (pos + 8) = walCrc32 body := by
    rw [← getWord_drop, h, h8]
  unfold batchAt
  rw [if_neg (by omega), hlen, if_neg, if_neg (by omega), hcrc, getBytes_of_drop (drop_frame_body h),
    if_neg (fun hne => hne rfl)]
  rintro (hne | h0)
  · exact hne hmagic
  · omega

theorem length_le_flatten : ∀ {rs : List Bytes}, (∀ r ∈ rs, IsRecord r) → rs.length ≤ rs.flatten.length := by
  intro rs
  induction rs with
  | nil => exact fun _ => Nat.le_refl _
  | cons r rs ih =>
      intro hrs
      have hr := (hrs r List.mem_cons_self).header
      have hrest := ih fun r' hr' => hrs r' (List.mem_cons_of_mem _ hr')
      unfold logHeaderSize at hr
      rw [List.length_cons, List.flatten_cons, List.length_append]
      omega

theorem scanBody_eq (hfile : file.length < 2 ^ 31) (hs : s.Ok file) {rs : List Bytes}
    (hrs : ∀ r ∈ rs, IsRecord r) (h : file.drop pos = rs.flatten ++ more)
    (hend : pos + rs.flatten.length ≤ file.length) :
    ∃ s', scanBody file s pos rs.flatten.length = some (s', rs) ∧ s'.Ok file ∧ s'.logEnd = s.logEnd := by
  have hok : Scanner.Ok file { s with logEnd := (pos : Int) + rs.flatten.length } :=
    ⟨hs.start, hs.len, hs.bytes⟩
  obtain ⟨s', h', hs', -⟩ := scanRecords_eq hfile hend rs (rs.flatten.length + 1) _ pos
    (Nat.lt_succ_of_le (length_le_flatten hrs)) hok (by dsimp only; omega) hrs h rfl
  refine ⟨{ s' with logEnd := s.logEnd }, ?_, ⟨hs'.start, hs'.len, hs'.bytes⟩, rfl⟩
  unfold scanBody
  rw [h', Option.bind_some]

/-! ## The batches -/

/-- The complete batches of records, one after another. -/
def frames (batches : List (List Bytes)) : Bytes := batches.flatMap fun rs => frame rs.flatten

/-- The loop over batches hands out the records of a complete batch and goes on behind it. -/
theorem scanBatches_frame {bound : Option Int} (hfile : file.length < 2 ^ 31) (hend : lim ≤ file.length)
    {stop : Nat} (hbound : ∀ e, bound = some e → (stop : Int) ≤ e) (hs : s.Ok file)
    (hlim : s.logEnd = lim) {rs : List Bytes} (hne : rs ≠ []) (hrs : ∀ r ∈ rs, IsRecord r)
    (hdrop : file.drop pos = frame rs.flatten ++ more) (hpos : pos + (frame rs.flatten).length ≤ stop)
    (hle : stop ≤ lim) (fuel : Nat) :
    ∃ s', scanBatches file bound (fuel + 1) s pos =
        (scanBatches file bound fuel s' ((pos + (frame rs.flatten).length : Nat) : Int)).map
          (fun (s, pos, rest) => (s, pos, rs ++ rest)) ∧ s'.Ok file ∧ s'.logEnd = lim := by
  have hbody : 0 < rs.flatten.length :=
    Nat.lt_of_lt_of_le (List.length_pos_iff.2 hne) (length_le_flatten hrs)
  have hflen := frame_length rs.flatten
  have hhdr : walBatchHdrSize = 12 := rfl
  obtain ⟨s1, h1, hs1, hl1⟩ := readBatch_eq hs hfile hlim hend pos
  rw [batchAt_frame hdrop hbody (by omega) (by omega), Option.map_some] at h1
  obtain ⟨s2, h2, hs2, hl2⟩ := scanBody_eq hfile hs1 hrs (drop_frame_body hdrop) (by omega)
  refine ⟨s2, ?_, hs2, hl2.trans hl1⟩
  rw [scanBatches, if_neg, h1, Option.bind_some]
  · dsimp only
    rw [if_neg (by omega), h2, Option.bind_some, hflen, Nat.cast_add pos]
    exact (Option.map_eq_bind (f := fun x : Scanner × Int × List Bytes => (x.1, x.2.1, rs ++ x.2.2))).symm
  · -- a batch is left, so the bound is not reached
    intro hany
    cases hb : bound with
    | none =>
        rw [hb] at hany
        cases hany
    | some e =>
        rw [hb, Option.any_some] at hany
        have hge := hbound e hb
        have hle' := of_decide_eq_true hany
        omega

/-- The loop over batches hands out their records and stops behind the last one. -/
theorem scanBatches_eq {bound : Option Int} (hfile : file.length < 2 ^ 31) (hend : lim ≤ file.length)
    {stop : Nat} (hbound : ∀ e, bound = some e → (stop : Int) ≤ e)
    (hstop : bound = some (stop : Int) ∨ batchAt file lim stop = none) :
    ∀ (batches : List (List Bytes)) (fuel : Nat) (s : Scanner) (pos : Nat), batches.length < fuel →
      s.Ok file → s.logEnd = lim → (∀ rs ∈ batches, rs ≠ [] ∧ ∀ r ∈ rs, IsRecord r) →
      file.drop pos = frames batches ++ more → pos + (frames batches).length = stop → stop ≤ lim →
      ∃ s', scanBatches file bound fuel s pos = some (s', (stop : Int), batches.flatten) ∧ s'.Ok file ∧
        s'.logEnd = lim := by
  intro batches
  induction batches with
  | nil =>
      intro fuel s pos hfuel hs hlim _ _ hpos _
      obtain ⟨fuel, rfl⟩ := Nat.exists_eq_add_one_of_ne_zero (Nat.ne_of_gt hfuel)
      have hpos' : pos = stop := hpos
      subst hpos'
      rw [scanBatches]
      rcases hstop with rfl | hnone
      · exact ⟨s, by simp, hs, hlim⟩
      · split
        · exact ⟨s, rfl, hs, hlim⟩
        · obtain ⟨s', h', hs', hl'⟩ := readBatch_eq hs hfile hlim hend pos
          rw [h', hnone]
          exact ⟨s', rfl, hs', hl'⟩
  | cons rs batches ih =>
      intro fuel s pos hfuel hs hlim hall hdrop hpos hle
      obtain ⟨fuel, rfl⟩ := Nat.exists_eq_add_one_of_ne_zero (Nat.ne_of_gt (Nat.zero_lt_of_lt hfuel))
      obtain ⟨hne, hrs⟩ := hall rs List.mem_cons_self
      have hframes : frames (rs :: batches) = frame rs.flatten ++ frames batches := List.flatMap_cons
      rw [hframes, List.append_assoc] at hdrop
      rw [hframes, List.length_append] at hpos
      obtain ⟨s1, h1, hs1, hl1⟩ := scanBatches_frame hfile hend hbound hs hlim hne hrs hdrop
        (by omega) hle fuel
      have hfuel' : batches.length < fuel := by
        rw [List.length_cons] at hfuel
        omega
      obtain ⟨s', h', hs', hl'⟩ := ih fuel s1 (pos + (frame rs.flatten).length) hfuel' hs1 hl1
        (fun rs' hrs' => hall rs' (List.mem_cons_of_mem _ hrs')) (drop_add_of_drop hdrop) (by omega) hle
      refine ⟨s', ?_, hs', hl'⟩
      rw [h1, h']
      rfl

theorem length_le_frames (batches : List (List Bytes)) : batches.length ≤ (frames batches).length := by
  induction batches with
  | nil => exact Nat.le_refl _
  | cons rs batches ih =>
      have hflen := frame_length rs.flatten
      have hhdr : walBatchHdrSize = 12 := rfl
      have hframes : frames (rs :: batches) = frame rs.flatten ++ frames batches := List.flatMap_cons
      rw [hframes, List.length_append, List.length_cons]
      omega

/-! ## A log after a crash -/

/-- The log in the file: the bytes before the restart offset, complete batches, and `cut` bytes
of one more batch followed by zeros. -/
structure Crashed where
  pre : Bytes
  batches : List (List Entry)
  next : List Entry
  cut : Nat
  zeros : Nat
  nonempty : ∀ es ∈ batches, es ≠ []
  torn : cut < (frame (batchBody next)).length

namespace Crashed

variable (c : Crashed)

def complete : Bytes := c.pre ++ c.batches.flatMap fun es => frame (batchBody es)

def rest : Bytes := (frame (batchBody c.next)).take c.cut ++ List.replicate c.zeros 0

def bytes : Bytes := c.complete ++ c.rest

/-- The records of the complete batches. -/
def records : List Bytes := c.batches.flatten.map Entry.serialize

/-- The checksum in the file is not the one of the torn body, as far as the file has them. -/
def Detected : Prop :=
  c.cut ≠ 0 → walBatchHdrSize + (getWord c.rest 4).toNat ≤ c.rest.length →
    getWord c.rest 8 ≠ walCrc32 (getBytes c.rest walBatchHdrSize (getWord c.rest 4).toNat)

/-- The serialized records, batch by batch. -/
def parts : List (List Bytes) := c.batches.map fun es => es.map Entry.serialize

theorem complete_eq : c.complete = c.pre ++ frames c.parts := by
  unfold complete frames parts batchBody
  rw [List.flatMap_map]
  rfl

theorem records_eq : c.records = c.parts.flatten := by
  unfold records parts
  rw [List.map_flatten]

theorem drop_pre : c.bytes.drop c.pre.length = frames c.parts ++ c.rest := by
  rw [bytes, complete_eq, List.append_assoc, List.drop_left]

theorem drop_complete : c.bytes.drop c.complete.length = c.rest := List.drop_left

theorem complete_length : c.pre.length + (frames c.parts).length = c.complete.length := by
  rw [complete_eq, List.length_append]

theorem bytes_length : c.bytes.length = c.complete.length + c.rest.length := List.length_append

theorem pre_of_no_parts (h : c.parts = []) : c.complete.length = c.pre.length := by
  rw [← complete_length, h]
  rfl

theorem records_of_no_parts (h : c.parts = []) : c.records = [] := by
  rw [records_eq, h]
  rfl

variable {c}

theorem parts_ok (hfile : c.bytes.length < 2 ^ 31) :
    ∀ rs ∈ c.parts, rs ≠ [] ∧ ∀ r ∈ rs, IsRecord r := by
  intro rs hrs
  have hlen : (frame rs.flatten).length ≤ (frames c.parts).length := by
    unfold frames
    rw [List.flatMap_def]
    exact (List.sublist_flatten_of_mem
      (List.mem_map_of_mem (f := fun rs : List Bytes => frame rs.flatten) hrs)).length_le
  obtain ⟨es, hes, rfl⟩ := List.mem_map.1 hrs
  refine ⟨fun h => c.nonempty es hes (List.map_eq_nil_iff.1 h), ?_⟩
  intro r hr
  have hr' := (List.sublist_flatten_of_mem hr).length_le
  obtain ⟨e, -, rfl⟩ := List.mem_map.1 hr
  have h1 := c.bytes_length
  have h2 := c.complete_length
  rw [frame_length] at hlen
  exact isRecord_serialize (by omega)

/-- What follows the complete batches is no batch. -/
theorem no_batch (hdet : c.Detected) : batchAt c.bytes c.bytes.length c.complete.length = none := by
  have hword : ∀ k, getWord c.bytes (c.complete.length + k) = getWord c.rest k := by
    intro k
    rw [← getWord_drop, drop_complete]
  have h0 := hword 0
  rw [Nat.add_zero] at h0
  have hbytes : ∀ k n, getBytes c.bytes (c.complete.length + k) n = getBytes c.rest k n := by
    intro k n
    unfold getBytes
    rw [← List.drop_drop, drop_complete]
  unfold batchAt
  dsimp only
  rw [h0, hword, hword, hbytes, c.bytes_length]
  split
  · rfl
  split
  · rfl
  rename_i hmagic
  rw [not_or, not_not] at hmagic
  split
  · rfl
  rename_i hfits
  split
  · rfl
  rename_i hcrc
  by_cases hcut : c.cut = 0
  · have hz : getWord c.rest 0 = 0 := by
      unfold rest
      rw [hcut]
      exact getWord_zeros _ _
    rw [hz] at hmagic
    exact absurd hmagic.1 (by decide)
  · exact absurd (not_not.1 hcrc).symm (hdet hcut (by omega))

/-- Without a magic there is no record either. -/
theorem no_record (hmagic : c.rest.length < walBatchHdrSize ∨ getWord c.rest 0 ≠ walBatchMagic) :
    oneAt c.bytes c.bytes.length c.complete.length = none := by
  unfold oneAt
  split
  · rfl
  rename_i hfits
  rw [c.bytes_length] at hfits
  have hhdr : logHeaderSize = 24 := rfl
  have hbhdr : walBatchHdrSize = 12 := rfl
  replace hmagic := hmagic.resolve_left (by omega)
  have hcut : c.cut < 4 := by
    by_contra hge
    apply hmagic
    have hlen : 4 ≤ ((frame (batchBody c.next)).take c.cut).length := by
      have := c.torn
      rw [List.length_take]
      omega
    unfold rest
    rw [getWord_append_left hlen]
    have hsame : getWord ((frame (batchBody c.next)).take c.cut) 0 = getWord (frame (batchBody c.next)) 0 := by
      apply getWord_congr
      intro i _ hi
      exact List.getElem?_take_of_lt (by omega)
    have hframe := (frame_words (batchBody c.next) []).1
    rw [List.append_nil] at hframe
    rw [hsame, hframe]
  have hword : getWord c.bytes (c.complete.length + offsetLogTotLen) = 0 := by
    rw [← getWord_drop, drop_complete]
    unfold rest
    obtain ⟨k, hk⟩ : ∃ k, offsetLogTotLen = ((frame (batchBody c.next)).take c.cut).length + k := by
      refine ⟨8 - ((frame (batchBody c.next)).take c.cut).length, ?_⟩
      have hle := List.length_take_le c.cut (frame (batchBody c.next))
      show 8 = _
      omega
    rw [hk, getWord_append_right rfl]
    exact getWord_zeros _ _
  rw [hword, if_pos (.inl (by decide))]

theorem magic_of_parts (h : c.parts ≠ []) : getWord c.bytes c.pre.length = walBatchMagic ∧
    c.pre.length + walBatchHdrSize ≤ c.bytes.length := by
  cases hp : c.parts with
  | nil => exact absurd hp h
  | cons rs ps =>
      have hframes : frames (rs :: ps) = frame rs.flatten ++ frames ps := List.flatMap_cons
      have hdrop := c.drop_pre
      rw [hp, hframes, List.append_assoc] at hdrop
      have hlen := c.complete_length
      rw [hp, hframes, List.length_append, frame_length] at hlen
      have hfl := c.bytes_length
      refine ⟨?_, by omega⟩
      rw [← Nat.add_zero c.pre.length, ← getWord_drop, hdrop]
      exact (frame_words _ _).1

end Crashed

/-- The offset the scan starts at. -/
def StartsAt (restart : Option Int) (start : Nat) : Prop :=
  restart = some (start : Int) ∨ (restart = none ∧ start = 0)

theorem StartsAt.startOffset_eq {restart : Option Int} {start : Nat} {logEnd : Int}
    (h : StartsAt restart start) (hle : start ≤ logEnd) : startOffset restart logEnd = start := by
  rcases h with rfl | ⟨rfl, rfl⟩
  · exact if_pos ⟨by omega, hle⟩
  · rfl

/-- `redo` finds no batch format: it reads nothing. -/
theorem redoScan_empty (file : Bytes) (s : Scanner) (start : Int) :
    redoScan file ⟨{ s with logEnd := start }, start, false, []⟩ =
      some ({ s with logEnd := start }, []) := by
  unfold redoScan
  dsimp only
  rw [if_neg Bool.false_ne_true, if_neg (Int.lt_irrefl _)]

section

variable {c : Crashed} (hfile : c.bytes.length < 2 ^ 31)
include hfile

theorem probe_eq (hs : s.Ok c.bytes) (hl : s.logEnd = c.bytes.length) :
    ∃ s', probe c.bytes s c.pre.length = some (s', decide
        (c.pre.length + walBatchHdrSize ≤ c.bytes.length ∧
          getWord c.bytes c.pre.length = walBatchMagic)) ∧
      s'.Ok c.bytes ∧ s'.logEnd = c.bytes.length := by
  unfold probe
  by_cases hfits : c.pre.length + walBatchHdrSize ≤ c.bytes.length
  · obtain ⟨s1, h1, hs1, hl1⟩ := ensureBytes_eq hs hfile (by omega) c.pre.length walBatchHdrSize
      (by omega)
    refine ⟨s1, ?_, hs1, hl1.trans hl⟩
    rw [if_pos (by omega), h1, Option.map_some]
    dsimp only
    rw [Option.any_some, getWord_getBytes (by decide), Nat.add_zero]
    simp [hfits]
  · refine ⟨s, ?_, hs, hl⟩
    rw [if_neg (by omega)]
    simp [hfits]

/-- The scan with complete batches, or with a torn one that shows its magic. -/
theorem scan_batches (hdet : c.Detected) (hs : s.Ok c.bytes) (hl : s.logEnd = c.bytes.length) :
    ∃ s', scanBatches c.bytes none ((s.logEnd - c.pre.length).toNat + 1) s c.pre.length =
        some (s', (c.complete.length : Int), c.records) ∧ s'.Ok c.bytes := by
  have hlen := c.bytes_length
  have hclen := c.complete_length
  have hcount := length_le_frames c.parts
  have hbound : ∀ e : Int, (none : Option Int) = some e → (c.complete.length : Int) ≤ e :=
    fun e h => (by cases h)
  obtain ⟨s', h', hs', -⟩ := scanBatches_eq hfile (Nat.le_refl _) hbound (.inr (Crashed.no_batch hdet))
    c.parts ((s.logEnd - c.pre.length).toNat + 1) s c.pre.length (by omega) hs hl (Crashed.parts_ok hfile)
    c.drop_pre hclen (by omega)
  exact ⟨s', by rw [h', c.records_eq], hs'⟩

theorem redo_batches (hs : s.Ok c.bytes) (hl : s.logEnd = c.complete.length) (visited : List Bytes) :
    ∃ s', redoScan c.bytes ⟨s, c.pre.length, true, visited⟩ = some (s', c.records) := by
  have hlen := c.bytes_length
  have hclen := c.complete_length
  have hcount := length_le_frames c.parts
  have hbound : ∀ e : Int, some (c.complete.length : Int) = some e → (c.complete.length : Int) ≤ e :=
    fun e h => Int.le_of_eq (Option.some.inj h)
  obtain ⟨s', h', -, -⟩ := scanBatches_eq hfile (by omega : c.complete.length ≤ c.bytes.length) hbound
    (.inl rfl) c.parts ((s.logEnd - c.pre.length).toNat + 1) s c.pre.length (by omega) hs hl
    (Crashed.parts_ok hfile) c.drop_pre hclen (Nat.le_refl _)
  refine ⟨s', ?_⟩
  unfold redoScan
  dsimp only
  rw [if_pos rfl]
  rw [hl] at h' ⊢
  rw [h', Option.map_some, c.records_eq]

/-- Without a magic at the start there is nothing complete, and the record loop finds nothing. -/
theorem scan_nothing (hs : s.Ok c.bytes) (hl : s.logEnd = c.bytes.length)
    (hno : ¬ (c.pre.length + walBatchHdrSize ≤ c.bytes.length ∧
      getWord c.bytes c.pre.length = walBatchMagic)) (fuel : Nat) :
    (∃ s', scanRecords c.bytes (fuel + 1) s c.pre.length = some (s', (c.pre.length : Int), [])) ∧
      c.complete.length = c.pre.length ∧ c.records = [] := by
  have hparts : c.parts = [] := by
    by_contra hne
    obtain ⟨hmagic, hfits⟩ := Crashed.magic_of_parts hne
    exact hno ⟨hfits, hmagic⟩
  have hsame := c.pre_of_no_parts hparts
  have hlen := c.bytes_length
  have hnone : oneAt c.bytes c.bytes.length c.complete.length = none := by
    apply Crashed.no_record
    by_cases hshort : c.rest.length < walBatchHdrSize
    · exact .inl hshort
    · right
      rw [← Crashed.drop_complete, getWord_drop, Nat.add_zero, hsame]
      exact fun hmagic => hno ⟨by omega, hmagic⟩
  rw [hsame] at hnone
  obtain ⟨s', h', -, -⟩ := scanRecords_none hs hfile hl (Nat.le_refl _) hnone fuel
  exact ⟨⟨s', h'⟩, hsame, c.records_of_no_parts hparts⟩

theorem scanFrom_crashed (hdet : c.Detected) (hs : s.Ok c.bytes) (hl : s.logEnd = c.bytes.length) :
    ∃ a s', scanFrom c.bytes s c.pre.length = some a ∧ a.visited = c.records ∧
      a.scanner.logEnd = c.complete.length ∧ redoScan c.bytes a = some (s', c.records) := by
  obtain ⟨s1, h1, hs1, hl1⟩ := probe_eq hfile hs hl
  unfold scanFrom
  rw [h1, Option.bind_some]
  dsimp only
  by_cases hmagic : c.pre.length + walBatchHdrSize ≤ c.bytes.length ∧
      getWord c.bytes c.pre.length = walBatchMagic
  · obtain ⟨s2, h2, hs2⟩ := scan_batches hfile hdet hs1 hl1
    have hs2' : Scanner.Ok c.bytes { s2 with logEnd := (c.complete.length : Int) } :=
      ⟨hs2.start, hs2.len, hs2.bytes⟩
    obtain ⟨s3, h3⟩ := redo_batches hfile hs2' rfl c.records
    rw [decide_eq_true hmagic, if_pos rfl, h2, Option.map_some]
    exact ⟨_, s3, rfl, rfl, rfl, h3⟩
  · obtain ⟨⟨s2, h2⟩, hsame, hrecords⟩ := scan_nothing hfile hs1 hl1 hmagic
      (s1.logEnd - c.pre.length).toNat
    rw [decide_eq_false hmagic, if_neg Bool.false_ne_true, h2, Option.map_some]
    rw [hrecords]
    exact ⟨_, { s2 with logEnd := (c.pre.length : Int) }, rfl, rfl, by rw [hsame],
      redoScan_empty _ _ _⟩

end

/-- The scan of `analyze`, and after it the one of `redo`, hand out exactly the records of the
complete batches; the log ends behind the last of them. -/
theorem scan_crashed (c : Crashed) (restart : Option Int) (hstart : StartsAt restart c.pre.length)
    (hfile : c.bytes.length < 2 ^ 31) (hdet : c.Detected) :
    ∃ a s, analyzeScan (some c.bytes) restart = some a ∧ a.visited = c.records ∧
      a.scanner.logEnd = c.complete.length ∧ redoScan c.bytes a = some (s, c.records) := by
  have hlen := c.bytes_length
  have hclen := c.complete_length
  have hsize := getFileSize_eq hfile
  unfold analyzeScan
  dsimp only
  rw [hsize, hstart.startOffset_eq (by omega)]
  exact scanFrom_crashed hfile hdet (Scanner.ok_fresh _ _) rfl

/-- A batch of two records, and a second batch cut in its first record. -/
theorem scan_crashed_torn : ∃ (c : Crashed) (a : Analyzed) (s : Scanner), c.records.length = 2 ∧
    c.cut = 15 ∧ analyzeScan (some c.bytes) none = some a ∧ a.visited = c.records ∧
      a.scanner.logEnd = c.complete.length ∧ redoScan c.bytes a = some (s, c.records) := by
  let c : Crashed :=
    { pre := []
      batches := [[⟨0, -1, .insert 1 ⟨"t", ⟨1, 0⟩⟩ [7, 8]⟩, ⟨1, -1, .commit 1⟩]]
      next := [⟨2, -1, .abort 2⟩]
      cut := 15
      zeros := 40
      nonempty := by decide
      torn := by decide +kernel }
  have hfile : c.bytes.length < 2 ^ 31 := by decide +kernel
  have hdet : c.Detected := by
    intro _ _
    decide +kernel
  obtain ⟨a, s, h⟩ := scan_crashed c none (.inr ⟨rfl, rfl⟩) hfile hdet
  exact ⟨c, a, s, rfl, rfl, h⟩

end Rmdb.Wal
