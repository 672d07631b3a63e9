import Rmdb.Wal.LogManager
import Rmdb.Wal.RoundTrip

/-!
# Logs of any size

`get_file_size` and the offset of `read_log` are `int`s.  The scans of `analyze` and `redo` see the
log cut at `toInt32` of its length (`analyzeScan_take`); on a log of 2 GiB and more they hand out
all complete batches from the restart offset on only when that cut lies behind them
(`scanned_iff`).
-/

namespace Rmdb.Wal

open Rmdb.Txn

variable {file more : Bytes} {s : Scanner} {lim pos : Nat}

/-! ## Only the part below the cut is read -/

theorem getFileSize_lt (file : Bytes) : getFileSize file < 2 ^ 31 := by
  have h : (file.length : Int).bmod (2 ^ 32) < ((2 ^ 32 : Nat) + 1) / 2 := Int.bmod_lt (by omega)
  unfold getFileSize toInt32
  omega

/-- The cut is not behind the end of the file. -/
theorem getFileSize_le (file : Bytes) : getFileSize file ≤ file.length := by
  unfold getFileSize toInt32
  rw [Int.bmod_def]
  split <;> omega

theorem getFileSize_take {k : Nat} (hk : getFileSize file = k) (hle : k ≤ file.length) :
    getFileSize (file.take k) = k := by
  have hlt := getFileSize_lt file
  have hlen : (file.take k).length = k := by
    rw [List.length_take, Nat.min_eq_left hle]
  rw [getFileSize_eq (by omega), hlen]

/-- `read_log` reads nothing behind the size it believes in. -/
theorem readLog_take {k : Nat} (hk : getFileSize file = k) (hle : k ≤ file.length) :
    readLog (file.take k) = readLog file := by
  have hlen : (file.take k).length = k := by
    rw [List.length_take, Nat.min_eq_left hle]
  funext size offset
  unfold readLog
  rw [getFileSize_take hk hle, hk, hlen]
  split
  · rfl
  dsimp only
  split
  · rfl
  generalize hsize : min size ((k : Int) - offset) = n
  by_cases hneg : offset < 0 ∨ n < 0
  · rw [if_pos (hneg.imp_right .inl), if_pos (hneg.imp_right .inl)]
  · rw [not_or] at hneg
    rw [if_neg (by omega), if_neg (by omega)]
    have hget : getBytes (file.take k) offset.toNat n.toNat = getBytes file offset.toNat n.toNat := by
      have hmin : min n.toNat (k - offset.toNat) = n.toNat := by omega
      unfold getBytes
      rw [List.drop_take, List.take_take, hmin]
    rw [hget]

section

variable {f g : Bytes} (h : readLog f = readLog g)
include h

theorem ensureBytes_congr : ensureBytes f = ensureBytes g := by
  funext s offset need
  unfold ensureBytes
  rw [h]

theorem readOne_congr : readOne f = readOne g := by
  funext s offset
  unfold readOne
  rw [ensureBytes_congr h]

theorem readBatch_congr : readBatch f = readBatch g := by
  funext s offset
  unfold readBatch
  rw [ensureBytes_congr h]

theorem scanRecords_congr : scanRecords f = scanRecords g := by
  funext fuel
  induction fuel with
  | zero => rfl
  | succ fuel ih =>
      funext s pos
      rw [scanRecords, scanRecords, readOne_congr h, ih]

theorem scanBody_congr : scanBody f = scanBody g := by
  funext s bodyOff bodyLen
  unfold scanBody
  rw [scanRecords_congr h]

theorem scanBatches_congr (bound : Option Int) : scanBatches f bound = scanBatches g bound := by
  funext fuel
  induction fuel with
  | zero => rfl
  | succ fuel ih =>
      funext s pos
      rw [scanBatches, scanBatches, readBatch_congr h, scanBody_congr h, ih]

theorem scanFrom_congr : scanFrom f = scanFrom g := by
  funext s start
  unfold scanFrom probe
  rw [ensureBytes_congr h, scanBatches_congr h, scanRecords_congr h]

theorem redoScan_congr : redoScan f = redoScan g := by
  funext a
  unfold redoScan
  dsimp only
  rw [scanBatches_congr h, scanRecords_congr h]

end

theorem analyzeScan_take {k : Nat} (hk : getFileSize file = k) (hle : k ≤ file.length)
    (restart : Option Int) : analyzeScan (some (file.take k)) restart = analyzeScan (some file) restart := by
  unfold analyzeScan
  dsimp only
  rw [getFileSize_take hk hle, hk, scanFrom_congr (readLog_take hk hle)]

/-! ## Short logs with any tail -/

section

variable (hfile : file.length < 2 ^ 31)
include hfile

/-- The loop over records ends, whatever is in the file. -/
theorem scanRecords_total (hend : lim ≤ file.length) : ∀ (fuel : Nat) (s : Scanner) (pos : Nat),
    s.Ok file → s.logEnd = lim → pos ≤ lim →
      ∃ s' pos' rs, scanRecords file fuel s pos = some (s', ((pos' : Nat) : Int), rs) ∧ s'.Ok file ∧
        s'.logEnd = lim ∧ pos ≤ pos' ∧ pos' ≤ lim := by
  intro fuel
  induction fuel with
  | zero => exact fun s pos hs hl hle => ⟨s, pos, [], rfl, hs, hl, Nat.le_refl _, hle⟩
  | succ fuel ih =>
      intro s pos hs hl hle
      obtain ⟨s1, h1, hs1, hl1⟩ := readOne_eq hs hfile hl hend pos
      cases hone : oneAt file lim pos with
      | none =>
          rw [hone] at h1
          exact ⟨s1, pos, [], by rw [scanRecords, h1]; rfl, hs1, hl1, Nat.le_refl _, hle⟩
      | some r =>
          have hr : pos + r.length ≤ lim := by
            unfold oneAt at hone
            split at hone
            · cases hone
            dsimp only at hone
            split at hone
            · cases hone
            rename_i hfits
            cases hone
            rw [getBytes_length (by omega)]
            omega
          obtain ⟨s2, pos', rs, h2, hs2, hl2, hp, hp'⟩ := ih s1 (pos + r.length) hs1 hl1 hr
          refine ⟨s2, pos', r :: rs, ?_, hs2, hl2, by omega, hp'⟩
          rw [Nat.cast_add] at h2
          rw [scanRecords, h1, hone, Option.bind_some]
          dsimp only
          rw [h2]
          rfl

theorem scanBody_total (hs : s.Ok file) {off len : Nat} (hle : off + len ≤ file.length) :
    ∃ s' rs, scanBody file s off len = some (s', rs) ∧ s'.Ok file ∧ s'.logEnd = s.logEnd := by
  have hok : Scanner.Ok file { s with logEnd := (off : Int) + len } := ⟨hs.start, hs.len, hs.bytes⟩
  obtain ⟨s', pos', rs, h', hs', -⟩ := scanRecords_total hfile hle (len + 1) _ off hok (by dsimp only; omega)
    (Nat.le_add_right _ _)
  refine ⟨{ s' with logEnd := s.logEnd }, rs, ?_, ⟨hs'.start, hs'.len, hs'.bytes⟩, rfl⟩
  unfold scanBody
  rw [h', Option.bind_some]

/-- The loop over batches ends, whatever is in the file. -/
theorem scanBatches_total (bound : Option Int) (hend : lim ≤ file.length) :
    ∀ (fuel : Nat) (s : Scanner) (pos : Nat), s.Ok file → s.logEnd = lim → pos ≤ lim →
      ∃ s' pos' rs, scanBatches file bound fuel s pos = some (s', ((pos' : Nat) : Int), rs) ∧ s'.Ok file ∧
        s'.logEnd = lim ∧ pos ≤ pos' ∧ pos' ≤ lim := by
  intro fuel
  induction fuel with
  | zero => exact fun s pos hs hl hle => ⟨s, pos, [], rfl, hs, hl, Nat.le_refl _, hle⟩
  | succ fuel ih =>
      intro s pos hs hl hle
      rw [scanBatches]
      split
      · exact ⟨s, pos, [], rfl, hs, hl, Nat.le_refl _, hle⟩
      obtain ⟨s1, h1, hs1, hl1⟩ := readBatch_eq hs hfile hl hend pos
      rw [h1]
      cases hat : batchAt file lim pos with
      | none => exact ⟨s1, pos, [], rfl, hs1, hl1, Nat.le_refl _, hle⟩
      | some blen =>
          have hfits : pos + (walBatchHdrSize + blen) ≤ lim := by
            unfold batchAt at hat
            split at hat
            · cases hat
            dsimp only at hat
            split at hat
            · cases hat
            split at hat
            · cases hat
            split at hat
            · cases hat
            cases hat
            omega
          have hhdr : walBatchHdrSize = 12 := rfl
          obtain ⟨s2, rs, h2, hs2, hl2⟩ := scanBody_total hfile hs1
            (by omega : pos + walBatchHdrSize + blen ≤ file.length)
          obtain ⟨s3, pos', rest, h3, hs3, hl3, hp, hp'⟩ := ih s2 (pos + (walBatchHdrSize + blen)) hs2
            (hl2.trans hl1) hfits
          rw [Nat.cast_add] at h3
          refine ⟨s3, pos', rs ++ rest, ?_, hs3, hl3, by omega, hp'⟩
          rw [Option.map_some, Option.bind_some]
          dsimp only
          rw [if_neg (by omega), h2, Option.bind_some]
          dsimp only
          rw [h3]
          rfl

/-- Complete batches are handed out, whatever follows them. -/
theorem scanBatches_prefix {bound : Option Int} (hend : lim ≤ file.length) {stop : Nat}
    (hbound : ∀ e, bound = some e → (stop : Int) ≤ e) :
    ∀ (batches : List (List Bytes)) (fuel : Nat) (s : Scanner) (pos : Nat), batches.length < fuel →
      s.Ok file → s.logEnd = lim → (∀ rs ∈ batches, rs ≠ [] ∧ ∀ r ∈ rs, IsRecord r) →
      file.drop pos = frames batches ++ more → pos + (frames batches).length = stop → stop ≤ lim →
      ∃ s' pos' rs, scanBatches file bound fuel s pos = some (s', ((pos' : Nat) : Int), batches.flatten ++ rs) ∧
        s'.Ok file ∧ s'.logEnd = lim ∧ stop ≤ pos' ∧ pos' ≤ lim := by
  intro batches
  induction batches with
  | nil =>
      intro fuel s pos _ hs hl _ _ hpos hle
      have hpos' : pos = stop := hpos
      subst hpos'
      exact scanBatches_total hfile bound hend fuel s pos hs hl hle
  | cons rs batches ih =>
      intro fuel s pos hfuel hs hlim hall hdrop hpos hle
      obtain ⟨fuel, rfl⟩ := Nat.exists_eq_add_one_of_ne_zero (Nat.ne_of_gt (Nat.zero_lt_of_lt hfuel))
      obtain ⟨hne, hrs⟩ := hall rs List.mem_cons_self
      have hframes : frames (rs :: batches) = frame rs.flatten ++ frames batches := List.flatMap_cons
      rw [hframes, List.append_assoc] at hdrop
      rw [hframes, List.length_append] at hpos
      obtain ⟨s1, h1, hs1, hl1⟩ := scanBatches_frame hfile hend hbound hs hlim hne hrs hdrop
        (by omega) hle fuel
      have hfuel' : batches.length < fuel := by
        rw [List.length_cons] at hfuel
        omega
      obtain ⟨s', pos', rest, h', hs', hl', hp, hp'⟩ := ih fuel s1 (pos + (frame rs.flatten).length)
        hfuel' hs1 hl1 (fun rs' hrs' => hall rs' (List.mem_cons_of_mem _ hrs')) (drop_add_of_drop hdrop)
        (by omega) hle
      refine ⟨s', pos', rest, ?_, hs', hl', hp, hp'⟩
      rw [h1, h', List.flatten_cons, List.append_assoc]
      rfl

end

/-! ## A log of any size -/

/-- The log in the file: what is before the restart offset, the complete batches as `flush_worker`
frames them, and whatever follows. -/
structure LogFile where
  pre : Bytes
  batches : List (List Entry)
  tail : Bytes
  nonempty : ∀ es ∈ batches, es ≠ []
  sized : ∀ es ∈ batches, (batchBody es).length ≤ logBufferSize

namespace LogFile

variable (c : LogFile)

def parts : List (List Bytes) := c.batches.map fun es => es.map Entry.serialize

def complete : Bytes := c.pre ++ frames c.parts

def bytes : Bytes := c.complete ++ c.tail

def records : List Bytes := c.parts.flatten

/-- Both scans start at the restart offset and hand out the records of every complete batch. -/
def Scanned (restart : Option Int) : Prop :=
  ∃ a s rs, analyzeScan (some c.bytes) restart = some a ∧ a.startOffset = c.pre.length ∧
    c.records <+: a.visited ∧ redoScan c.bytes a = some (s, rs) ∧ c.records <+: rs

variable {c}

theorem flatten_serialize (es : List Entry) : (es.map Entry.serialize).flatten = batchBody es := by
  rw [batchBody, List.flatMap_def]

theorem parts_ok : ∀ rs ∈ c.parts, rs ≠ [] ∧ ∀ r ∈ rs, IsRecord r := by
  intro rs hrs
  obtain ⟨es, hes, rfl⟩ := List.mem_map.1 hrs
  refine ⟨fun h => c.nonempty es hes (List.map_eq_nil_iff.1 h), ?_⟩
  intro r hr
  have hlen := (List.sublist_flatten_of_mem hr).length_le
  rw [flatten_serialize] at hlen
  obtain ⟨e, -, rfl⟩ := List.mem_map.1 hr
  have hbuf := c.sized es hes
  have h32 : logBufferSize < 2 ^ 32 := by decide
  exact isRecord_serialize (by omega)

theorem length_le_records : ∀ {ps : List (List Bytes)}, (∀ rs ∈ ps, rs ≠ []) → ps.length ≤ ps.flatten.length := by
  intro ps
  induction ps with
  | nil => exact fun _ => Nat.le_refl _
  | cons rs ps ih =>
      intro hne
      have hrs := List.length_pos_iff.2 (hne rs List.mem_cons_self)
      have hps := ih fun rs' hrs' => hne rs' (List.mem_cons_of_mem _ hrs')
      rw [List.flatten_cons, List.length_append, List.length_cons]
      omega

/-- The cut log shows the magic of the first complete batch. -/
theorem magic (h : c.parts ≠ []) {k : Nat} (hle : c.complete.length ≤ k) :
    getWord (c.bytes.take k) c.pre.length = walBatchMagic ∧ c.pre.length + walBatchHdrSize ≤ c.complete.length := by
  cases hp : c.parts with
  | nil => exact absurd hp h
  | cons rs ps =>
      have hframes : frames (rs :: ps) = frame rs.flatten ++ frames ps := List.flatMap_cons
      have hcomplete : c.complete = c.pre ++ (frame rs.flatten ++ frames ps) := by
        rw [complete, hp, hframes]
      have hlen : c.pre.length + walBatchHdrSize ≤ c.complete.length := by
        rw [hcomplete, List.length_append, List.length_append, frame_length]
        omega
      refine ⟨?_, hlen⟩
      have htake : c.bytes.take k = c.complete ++ c.tail.take (k - c.complete.length) := by
        rw [bytes, List.take_append, List.take_of_length_le hle]
      rw [htake, hcomplete, ← Nat.add_zero c.pre.length, ← getWord_drop, List.append_assoc,
        List.drop_left, List.append_assoc]
      exact (frame_words _ _).1

/-! ### The cut lies behind the batches -/

theorem scanFrom_short {k : Nat} (hle : c.complete.length ≤ k) (hk : k ≤ c.bytes.length) (h31 : k < 2 ^ 31)
    (hs : s.Ok (c.bytes.take k)) (hl : s.logEnd = k) :
    ∃ a s' rs, scanFrom (c.bytes.take k) s c.pre.length = some a ∧ a.startOffset = c.pre.length ∧
      c.records <+: a.visited ∧ redoScan (c.bytes.take k) a = some (s', rs) ∧ c.records <+: rs := by
  have hlen : (c.bytes.take k).length = k := by
    rw [List.length_take, Nat.min_eq_left hk]
  have hfile : (c.bytes.take k).length < 2 ^ 31 := by omega
  have hpre : c.pre.length + (frames c.parts).length = c.complete.length := by
    rw [complete, List.length_append]
  have hdrop : (c.bytes.take k).drop c.pre.length = frames c.parts ++ c.tail.take (k - c.complete.length) := by
    rw [bytes, List.take_append, List.take_of_length_le hle, complete, List.append_assoc, List.drop_left]
  have hcount := length_le_frames c.parts
  have hhdr : walBatchHdrSize = 12 := rfl
  obtain ⟨s1, h1, hs1, hl1⟩ : ∃ s1, probe (c.bytes.take k) s c.pre.length = some (s1, decide
      (c.pre.length + walBatchHdrSize ≤ k ∧ getWord (c.bytes.take k) c.pre.length = walBatchMagic)) ∧
      s1.Ok (c.bytes.take k) ∧ s1.logEnd = k := by
    unfold probe
    by_cases hfits : c.pre.length + walBatchHdrSize ≤ k
    · obtain ⟨s1, h1, hs1, hl1⟩ := ensureBytes_eq hs hfile (by omega) c.pre.length walBatchHdrSize
        (by omega)
      refine ⟨s1, ?_, hs1, hl1.trans hl⟩
      rw [if_pos (by omega), h1, Option.map_some]
      dsimp only
      rw [Option.any_some, getWord_getBytes (by decide), Nat.add_zero]
      simp [hfits]
    · refine ⟨s, ?_, hs, hl⟩
      rw [if_neg (by omega)]
      simp [hfits]
  unfold scanFrom
  rw [h1, Option.bind_some]
  dsimp only
  rw [hl1]
  by_cases hmagic : c.pre.length + walBatchHdrSize ≤ k ∧
      getWord (c.bytes.take k) c.pre.length = walBatchMagic
  · rw [decide_eq_true hmagic, if_pos rfl]
    obtain ⟨s2, stop, rs, h2, hs2, hl2, hstop, hstopk⟩ := scanBatches_prefix hfile
      (Nat.le_of_eq hlen.symm) (fun e (h : (none : Option Int) = some e) => (by cases h)) c.parts (((k : Int) - c.pre.length).toNat + 1) s1
      c.pre.length (by omega) hs1 hl1 parts_ok hdrop hpre hle
    rw [h2, Option.map_some]
    have hs2' : Scanner.Ok (c.bytes.take k) { s2 with logEnd := (stop : Int) } := ⟨hs2.start, hs2.len, hs2.bytes⟩
    obtain ⟨s3, stop', rs', h3, -⟩ := scanBatches_prefix hfile
      (by omega : stop ≤ _) (fun e (h : some (stop : Int) = some e) => by cases h; omega) c.parts (((stop : Int) - c.pre.length).toNat + 1)
      _ c.pre.length (by omega) hs2' rfl parts_ok hdrop hpre hstop
    refine ⟨_, s3, _, rfl, rfl, ⟨rs, rfl⟩, ?_, ⟨rs', rfl⟩⟩
    unfold redoScan
    dsimp only
    rw [if_pos rfl, h3, Option.map_some]
    rfl
  · have hnil : c.parts = [] := by
      by_contra hne
      obtain ⟨hword, hfits⟩ := magic hne hle
      exact hmagic ⟨by omega, hword⟩
    have hrecords : c.records = [] := by
      rw [records, hnil]
      rfl
    rw [decide_eq_false hmagic, if_neg Bool.false_ne_true]
    obtain ⟨s2, stop, rs, h2, hs2, hl2, hstop, hstopk⟩ := scanRecords_total hfile
      (Nat.le_of_eq hlen.symm) (((k : Int) - c.pre.length).toNat + 1) s1 c.pre.length hs1 hl1 (by omega)
    rw [h2, Option.map_some, hrecords]
    have hs2' : Scanner.Ok (c.bytes.take k) { s2 with logEnd := (stop : Int) } := ⟨hs2.start, hs2.len, hs2.bytes⟩
    obtain ⟨s3, stop', rs', h3, -⟩ := scanRecords_total hfile (by omega : stop ≤ _)
      (((stop : Int) - c.pre.length).toNat + 1) _ c.pre.length hs2' rfl hstop
    by_cases hlt : (c.pre.length : Int) < stop
    · refine ⟨_, s3, rs', rfl, rfl, List.nil_prefix, ?_, List.nil_prefix⟩
      unfold redoScan
      dsimp only
      rw [if_neg Bool.false_ne_true, if_pos hlt, h3, Option.map_some]
    · refine ⟨_, { s2 with logEnd := (stop : Int) }, [], rfl, rfl, List.nil_prefix, ?_, List.nil_prefix⟩
      unfold redoScan
      dsimp only
      rw [if_neg Bool.false_ne_true, if_neg hlt]

/-! ### The cut lies before the end of the batches -/

/-- The batch in which a position lies. -/
theorem exists_cut : ∀ (batches : List (List Entry)) (n : Nat),
    n < (frames (batches.map fun es => es.map Entry.serialize)).length →
    ∃ done es rest cut, batches = done ++ es :: rest ∧
      (frames (done.map fun es => es.map Entry.serialize)).length + cut = n ∧
      cut < (frame (batchBody es)).length := by
  intro batches
  induction batches with
  | nil => exact fun n h => absurd h (Nat.not_lt_zero _)
  | cons es batches ih =>
      intro n h
      have hframes : ∀ bs : List (List Entry), frames ((es :: bs).map fun es => es.map Entry.serialize) =
          frame (batchBody es) ++ frames (bs.map fun es => es.map Entry.serialize) := by
        intro bs
        rw [List.map_cons, ← flatten_serialize]
        exact List.flatMap_cons
      rw [hframes, List.length_append] at h
      by_cases hn : n < (frame (batchBody es)).length
      · exact ⟨[], es, batches, n, rfl, Nat.zero_add _, hn⟩
      · obtain ⟨done, es', rest, cut, rfl, hcut, hlt⟩ := ih (n - (frame (batchBody es)).length) (by omega)
        refine ⟨es :: done, es', rest, cut, rfl, ?_, hlt⟩
        rw [hframes, List.length_append]
        omega

/-- Of a batch that is cut nothing is handed out. -/
theorem visited_cut {k : Nat} (hsize : getFileSize c.bytes = k) (hpre : c.pre.length ≤ k)
    (hlt : k < c.complete.length) {restart : Option Int} (hstart : StartsAt restart c.pre.length) :
    ∃ a, analyzeScan (some c.bytes) restart = some a ∧ a.visited.length < c.records.length := by
  have hcomplete : c.complete.length = c.pre.length + (frames c.parts).length := by
    rw [complete, List.length_append]
  have hbytes : c.bytes.length = c.complete.length + c.tail.length := List.length_append
  obtain ⟨done, es, rest, cut, hb, hcut, hin⟩ := exists_cut c.batches (k - c.pre.length) (by
    have hparts : frames c.parts = frames (c.batches.map fun es => es.map Entry.serialize) := rfl
    rw [← hparts]
    omega)
  have hne : ∀ e ∈ done, e ≠ [] := fun e he => c.nonempty e (by rw [hb]; exact List.mem_append_left _ he)
  let c' : Crashed := ⟨c.pre, done, es, cut, 0, hne, hin⟩
  have hframes : frames c.parts = frames c'.parts ++ (frame (batchBody es) ++
      frames (rest.map fun es => es.map Entry.serialize)) := by
    show frames (c.batches.map _) = frames (done.map _) ++ _
    rw [hb, List.map_append, List.map_cons, frames, List.flatMap_append, List.flatMap_cons,
      flatten_serialize]
    rfl
  have htake : c.bytes.take k = c'.bytes := by
    have hlen : c'.complete.length = c.pre.length + (frames c'.parts).length := c'.complete_length.symm
    have hcut' : (frames c'.parts).length + cut = k - c.pre.length := hcut
    have hall : c.bytes = c'.complete ++ (frame (batchBody es) ++
        frames (rest.map fun es => es.map Entry.serialize) ++ c.tail) := by
      rw [bytes, complete, hframes, c'.complete_eq]
      simp only [List.append_assoc]
      rfl
    have hk : k = c'.complete.length + cut := by omega
    rw [hall, hk, List.take_length_add_append, List.append_assoc,
      List.take_append_of_le_length (Nat.le_of_lt hin)]
    show c'.complete ++ _ = c'.complete ++ (_ ++ List.replicate 0 0)
    rw [List.replicate_zero, List.append_nil]
  have hfile : c'.bytes.length < 2 ^ 31 := by
    rw [← htake, List.length_take]
    have h31 := getFileSize_lt c.bytes
    omega
  have hdet : c'.Detected := by
    intro _ hfits
    exfalso
    have hrest : c'.rest = (frame (batchBody es)).take cut := by
      show _ ++ List.replicate 0 0 = _
      rw [List.replicate_zero, List.append_nil]
    have hrlen : c'.rest.length = cut := by
      rw [hrest, List.length_take, Nat.min_eq_left (Nat.le_of_lt hin)]
    have hword : getWord c'.rest 4 = BitVec.ofNat 32 (batchBody es).length := by
      have hsame : getWord c'.rest 4 = getWord (frame (batchBody es)) 4 := by
        rw [hrest]
        apply getWord_congr
        intro i _ hi
        have hhdr : walBatchHdrSize = 12 := rfl
        exact List.getElem?_take_of_lt (by omega)
      have hframe := (frame_words (batchBody es) []).2.1
      rw [List.append_nil] at hframe
      rw [hsame, hframe]
    have hsized := c.sized es (by rw [hb]; exact List.mem_append_right _ List.mem_cons_self)
    have h32 : logBufferSize < 2 ^ 32 := by decide
    rw [hword, BitVec.toNat_ofNat, Nat.mod_eq_of_lt (by omega), hrlen] at hfits
    rw [frame_length] at hin
    omega
  obtain ⟨a, s, ha, hvisited, -⟩ := scan_crashed c' restart hstart hfile hdet
  rw [← htake, analyzeScan_take hsize (by omega)] at ha
  refine ⟨a, ha, ?_⟩
  have hrecords : c.records = c'.records ++ (es.map Entry.serialize ++
      (rest.map fun es => es.map Entry.serialize).flatten) := by
    rw [records, c'.records_eq]
    show (c.batches.map _).flatten = (done.map _).flatten ++ _
    rw [hb, List.map_append, List.map_cons, List.flatten_append, List.flatten_cons]
  have hes : 0 < (es.map Entry.serialize).length := by
    rw [List.length_map]
    exact List.length_pos_iff.2
      (c.nonempty es (by rw [hb]; exact List.mem_append_right _ List.mem_cons_self))
  rw [hvisited, hrecords, List.length_append, List.length_append]
  omega

/-- A size that comes out negative makes the log look empty. -/
theorem analyze_negative (h : getFileSize c.bytes < 0) (restart : Option Int) :
    ∃ a, analyzeScan (some c.bytes) restart = some a ∧ a.startOffset = 0 ∧ a.visited = [] ∧
      redoScan c.bytes a = some (a.scanner, []) := by
  have hstart : startOffset restart (getFileSize c.bytes) = 0 := by
    unfold startOffset
    split
    · rw [if_neg (by omega)]
    · rfl
  have hhdr : (walBatchHdrSize : Int) = 12 := rfl
  have hrec : (logHeaderSize : Int) = 24 := rfl
  unfold analyzeScan
  dsimp only
  rw [hstart]
  unfold scanFrom probe
  dsimp only
  rw [if_neg (by omega), Option.bind_some]
  dsimp only
  rw [if_neg Bool.false_ne_true, scanRecords, readOne]
  dsimp only
  rw [if_pos (by omega), Option.bind_some]
  dsimp only
  rw [Option.map_some]
  exact ⟨_, rfl, rfl, rfl, redoScan_empty _ _ _⟩

end LogFile

open LogFile

/-- **Logs of any size.**  The scans of recovery hand out every complete batch from the restart
offset on exactly when the `int` that is taken for the size of the log is not before the end of
the batches (or there is nothing before the restart offset and no batch). -/
theorem scanned_iff (c : LogFile) (restart : Option Int) (hstart : StartsAt restart c.pre.length) :
    c.Scanned restart ↔
      (c.complete.length : Int) ≤ toInt32 c.bytes.length ∨ (c.pre = [] ∧ c.batches = []) := by
  have hcomplete : c.complete.length = c.pre.length + (frames c.parts).length := by
    rw [complete, List.length_append]
  have hsame : toInt32 c.bytes.length = getFileSize c.bytes := rfl
  rw [hsame]
  rcases Int.lt_or_le (getFileSize c.bytes) 0 with hneg | hnonneg
  · obtain ⟨a, ha, hstart0, hvisited, hredo⟩ := analyze_negative hneg restart
    constructor
    · rintro ⟨a', s, rs, ha', hstart', hrecords, -⟩
      rw [ha] at ha'
      cases ha'
      rw [hvisited, List.prefix_nil] at hrecords
      have hcount := length_le_records fun rs hrs => (parts_ok (c := c) rs hrs).1
      have hnone : c.parts = [] := by
        have hlen : c.parts.flatten.length = 0 := by
          rw [← records, hrecords]
          rfl
        exact List.length_eq_zero_iff.1 (by omega)
      exact .inr ⟨List.length_eq_zero_iff.1 (by omega), List.map_eq_nil_iff.1 hnone⟩
    · rintro (hle | ⟨hpre, hbatches⟩)
      · omega
      · have hrecords : c.records = [] := by
          rw [records, parts, hbatches]
          rfl
        refine ⟨a, _, _, ha, ?_, ?_, hredo, ?_⟩
        · rw [hstart0, hpre, List.length_nil, Nat.cast_zero]
        · exact hrecords ▸ List.nil_prefix
        · exact hrecords ▸ List.nil_prefix
  · obtain ⟨k, hk⟩ := Int.eq_ofNat_of_zero_le hnonneg
    have hle : k ≤ c.bytes.length := by
      have := getFileSize_le c.bytes
      omega
    have h31 : k < 2 ^ 31 := by
      have h := getFileSize_lt c.bytes
      omega
    constructor
    · rintro ⟨a, s, rs, ha, hstart', hrecords, -⟩
      by_contra hno
      rw [not_or, hk] at hno
      have hpre : c.pre.length ≤ k := by
        by_contra hgt
        have hzero : startOffset restart (getFileSize c.bytes) = 0 := by
          rcases hstart with rfl | ⟨rfl, -⟩
          · unfold startOffset
            rw [hk]
            dsimp only
            rw [if_neg (by omega)]
          · rfl
        have hback : a.startOffset = 0 := by
          unfold analyzeScan at ha
          dsimp only at ha
          rw [hzero] at ha
          unfold scanFrom at ha
          obtain ⟨r, -, ha⟩ := Option.bind_eq_some_iff.1 ha
          obtain ⟨r', -, ha⟩ := Option.map_eq_some_iff.1 ha
          rw [← ha]
        omega
      obtain ⟨a', ha', hshort⟩ := visited_cut hk hpre (by omega) hstart
      rw [ha] at ha'
      cases ha'
      have := hrecords.length_le
      omega
    · intro hcond
      have hfits : c.complete.length ≤ k := by
        rcases hcond with h | ⟨hpre, hbatches⟩
        · omega
        · rw [hcomplete, hpre, parts, hbatches]
          exact Nat.zero_le _
      have hok := Scanner.ok_fresh (c.bytes.take k) k
      obtain ⟨a, s, rs, ha, hstart', hvisited, hredo, hrs⟩ := scanFrom_short hfits hle h31 hok rfl
      refine ⟨a, s, rs, ?_, hstart', hvisited, ?_, hrs⟩
      · rw [← analyzeScan_take hk hle]
        unfold analyzeScan
        dsimp only
        rw [getFileSize_take hk hle, hstart.startOffset_eq (by omega)]
        exact ha
      · rw [← redoScan_congr (readLog_take hk hle)]
        exact hredo

/-- A log of one batch with `n` more bytes behind it. -/
def oneBatch (n : Nat) : LogFile where
  pre := []
  batches := [[⟨0, -1, .begin 1⟩, ⟨1, -1, .commit 1⟩]]
  tail := List.replicate n 0
  nonempty := by decide
  sized := by decide +kernel

theorem oneBatch_length (n : Nat) : (oneBatch n).bytes.length = 60 + n := by
  unfold bytes
  rw [List.length_append]
  show 60 + (List.replicate n (0 : UInt8)).length = _
  rw [List.length_replicate]

/-- With the batch and the zeros of 100 bytes. -/
theorem scanned_iff_short : (oneBatch 100).Scanned none :=
  (scanned_iff (oneBatch 100) none (.inr ⟨rfl, rfl⟩)).2 (.inl (by
    rw [oneBatch_length]
    decide +kernel))

/-- In a file of 2 GiB the batch at its start is not seen. -/
theorem not_scanned_large :
    (oneBatch (2 ^ 31 - 60)).bytes.length = 2 ^ 31 ∧ ¬ (oneBatch (2 ^ 31 - 60)).Scanned none := by
  have hlen : (oneBatch (2 ^ 31 - 60)).bytes.length = 2 ^ 31 := by
    rw [oneBatch_length]
    norm_num
  refine ⟨hlen, ?_⟩
  rintro ⟨a, s, rs, ha, -, hrecords, -⟩
  have hneg : getFileSize (oneBatch (2 ^ 31 - 60)).bytes < 0 := by
    unfold getFileSize
    rw [hlen]
    decide +kernel
  obtain ⟨a', ha', -, hvisited, -⟩ := analyze_negative hneg none
  rw [ha] at ha'
  cases ha'
  rw [hvisited, List.prefix_nil] at hrecords
  cases hrecords

end Rmdb.Wal
