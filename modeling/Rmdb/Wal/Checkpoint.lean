import Rmdb.Wal.Conns

/-!
# `do_checkpoint`

The steps of `SmManager::do_checkpoint` (src/system/sm_manager.cpp) among the steps of the other
connections; the handler of `create static_checkpoint` stops none of them.  The pool is taken as
a cache: a page is resident or on the disk, and a write-back outside the checkpoint is one step.
-/

namespace Rmdb.Wal

open Rmdb.Txn
open Rmdb.Lib (run Along run_invariant_along)

def bpmNshards : Nat := 64

/-- `shard_of_page`, with the shifts on 32-bit words. -/
def shardOfPage (p : PageId) : Nat :=
  (((BitVec.ofInt 32 p.fd <<< 16) ||| BitVec.ofInt 32 p.pageNo).signExtend 64).toNat % bpmNshards

/-! ## State -/

/-- Where the checkpoint of thread `i` is; `off` is what `cur_offset` returned. -/
inductive Ckpt where
  | idle
  /-- the first `flush_log_to_disk` is called -/
  | flushed (i : Nat)
  | read (i : Nat) (off : Nat)
  /-- the checkpoint record is handed to `add_log_to_buffer` -/
  | logged (i : Nat) (off : Nat)
  /-- the second `flush_log_to_disk` is called -/
  | forced (i : Nat) (off : Nat)
  /-- the files whose pages are still to be flushed -/
  | files (i : Nat) (off : Nat) (fds : List Int)
  /-- `flush_all_pages fd` at shard `k` -/
  | shards (i : Nat) (off : Nat) (fd : Int) (fds : List Int) (k : Nat)
  /-- the pages of the shard that are still to be written; the shard is latched -/
  | pages (i : Nat) (off : Nat) (fd : Int) (fds : List Int) (k : Nat) (todo : List PageId)
deriving DecidableEq, Repr

def Ckpt.thread? : Ckpt → Option Nat
  | .idle => none
  | .flushed i | .read i _ | .logged i _ | .forced i _ | .files i _ _ | .shards i _ _ _ _
  | .pages i _ _ _ _ _ => some i

def Ckpt.offset? : Ckpt → Option Nat
  | .idle | .flushed _ => none
  | .read _ off | .logged _ off | .forced _ off | .files _ off _ | .shards _ off _ _ _
  | .pages _ off _ _ _ _ => some off

/-- Is `cur_offset` the next step? -/
def Ckpt.reads : Ckpt → Bool
  | .flushed _ => true
  | _ => false

def Ckpt.latched : Ckpt → PageId → Bool
  | .pages _ _ _ _ k _, p => decide (shardOfPage p = k)
  | _, _ => false

structure Server extends Conns where
  /-- the open tables, `fhs_` -/
  files : List Int
  /-- the resident pages -/
  pool : List PageId := []
  pages : PageId → Image := fun _ => []
  disk : PageId → Image := fun _ => []
  /-- changes of transactions that were rolled back before the changes were applied -/
  dropped : List Change := []
  ckpt : Ckpt := .idle
  /-- what db.restart holds -/
  restart : Option Nat := none

namespace Server

/-- The server opens its tables on a log that ends after `disk`. -/
def init (disk : Bytes) (files : List Int) : Server := { log := .init disk, files := files }

/-! ## Steps of the other connections -/

def conn (s : Server) (a : ConnAct) : Option Server :=
  (s.toConns.step a).map fun t => { s with toConns := t }

/-- `fetch_page` of a page that is not resident. -/
def load (s : Server) (p : PageId) : Option Server :=
  if p ∉ s.pool ∧ s.ckpt.latched p = false then some { s with pool := p :: s.pool } else none

/-- A write-back: the page cleaner, or an eviction, which drops the page. -/
def writeBack (s : Server) (p : PageId) (drop : Bool) : Option Server :=
  if p ∈ s.pool ∧ s.ckpt.latched p = false then
    some { s with
      disk := Function.update s.disk p (s.pages p)
      pool := if drop then s.pool.erase p else s.pool }
  else none

def applyChange (s : Server) (c : Change) : Option Server :=
  if c.page ∈ s.pool ∧ c.page.fd ∈ s.files then
    some { s with pages := Function.update s.pages c.page (s.pages c.page ++ [c]) }
  else none

/-- `insert_record` or an in-place slot update; its log record comes next. -/
def change (s : Server) (i : Nat) (p : PageId) (record : LogRecord) : Option Server :=
  if s.ckpt.thread? ≠ some i then
    (s.conn (.change i p record)).bind fun t => t.applyChange ⟨s.nextId, p, record⟩
  else none

/-- A versioned write or an in-place delete logs its change first. -/
def logFirst (s : Server) (i : Nat) (p : PageId) (record : LogRecord) : Option Server :=
  if s.ckpt.thread? ≠ some i then s.conn (.logFirst i p record) else none

def addLog (s : Server) (i : Nat) (other : LogRecord) : Option Server :=
  if s.ckpt.thread? ≠ some i then s.conn (.addLog i other) else none

/-- A logged change is applied: at once, or at commit. -/
def apply (s : Server) (i : Nat) (c : Change) : Option Server :=
  if s.ckpt.thread? ≠ some i then (s.conn (.take i c)).bind fun t => t.applyChange c else none

/-- The transaction of a logged change that is not applied is rolled back. -/
def dropChange (s : Server) (i : Nat) (c : Change) : Option Server :=
  if s.ckpt.thread? ≠ some i then
    (s.conn (.take i c)).map fun t => { t with dropped := c :: t.dropped }
  else none

/-- A step of the flush worker, or of a thread that calls or waits for the log manager. -/
def logStep (s : Server) (a : LogAct) : Option Server :=
  match a with
  | .flushLogToDisk i | .waitForPersist i _ => if s.ckpt.thread? ≠ some i then s.conn (.log a) else none
  | _ => s.conn (.log a)

/-! ## Steps of the checkpoint -/

def startCkpt (s : Server) (i : Nat) : Option Server :=
  if s.ckpt = .idle ∧ s.stmt i = .idle then
    (s.conn (.log (.flushLogToDisk i))).map fun t => { t with ckpt := .flushed i }
  else none

/-- The next step of the checkpoint, except for the pages. -/
def nextCkpt (s : Server) : Option Server :=
  match s.ckpt with
  | .flushed i =>
      if s.log.callers i = .idle then some { s with ckpt := .read i s.log.totalOffset } else none
  | .read i off => (s.conn (.addLog i .ckpt)).map fun t => { t with ckpt := .logged i off }
  | .logged i off => (s.conn (.log (.flushLogToDisk i))).map fun t => { t with ckpt := .forced i off }
  | .forced i off =>
      if s.log.callers i = .idle then some { s with ckpt := .files i off s.files } else none
  | .files i off (fd :: fds) =>
      (s.conn (.log (.flushLogToDisk i))).map fun t => { t with ckpt := .shards i off fd fds 0 }
  | .shards i off fd fds k =>
      if s.log.callers i = .idle then
        if k < bpmNshards then
          some { s with
            ckpt := .pages i off fd fds k
              (s.pool.filter fun p => decide (p.fd = fd ∧ shardOfPage p = k)) }
        else some { s with ckpt := .files i off fds }
      else none
  | .pages i off fd fds k [] => some { s with ckpt := .shards i off fd fds (k + 1) }
  | .files _ off [] => some { s with ckpt := .idle, restart := some off }
  | _ => none

/-- `flush_all_pages` writes a page of the shard. -/
def writePage (s : Server) (p : PageId) : Option Server :=
  match s.ckpt with
  | .pages i off fd fds k todo =>
      if p ∈ todo then
        some { s with
          disk := Function.update s.disk p (s.pages p)
          ckpt := .pages i off fd fds k (todo.erase p) }
      else none
  | _ => none

end Server

/-! ## Runs -/

inductive ServerAct where
  | load (p : PageId)
  | writeBack (p : PageId) (drop : Bool)
  | change (i : Nat) (p : PageId) (record : LogRecord)
  | logFirst (i : Nat) (p : PageId) (record : LogRecord)
  | addLog (i : Nat) (other : LogRecord)
  | addWoken (i : Nat)
  | apply (i : Nat) (c : Change)
  | dropChange (i : Nat) (c : Change)
  | log (a : LogAct)
  | startCkpt (i : Nat)
  | nextCkpt
  | writePage (p : PageId)
deriving DecidableEq, Repr

def Server.step (s : Server) : ServerAct → Option Server
  | .load p => s.load p
  | .writeBack p drop => s.writeBack p drop
  | .change i p record => s.change i p record
  | .logFirst i p record => s.logFirst i p record
  | .addLog i other => s.addLog i other
  | .addWoken i => s.conn (.addWoken i)
  | .apply i c => s.apply i c
  | .dropChange i c => s.dropChange i c
  | .log a => s.logStep a
  | .startCkpt i => s.startCkpt i
  | .nextCkpt => s.nextCkpt
  | .writePage p => s.writePage p

namespace Server

/-! ## The offset in db.restart -/

/-- The first `n` records are in the batches that end at `off`. -/
def Boundary (disk : Bytes) (m : LogManager) (off n : Nat) : Prop :=
  ∃ bs rest, m.batches = bs ++ rest ∧ off = disk.length + (framesOf bs).length ∧
    n = (entriesOf bs).length

/-- The changes among the first `n` records are in the pages, and on the disk where `done` says so. -/
def Covered (s : Server) (n : Nat) (done : PageId → Prop) : Prop :=
  ∀ x ∈ s.records, x.2.lsn < n → x.1 ∉ s.dropped →
    x.1 ∈ s.pages x.1.page ∧ (done x.1.page → x.1 ∈ s.disk x.1.page)

end Server

/-- The pages that the checkpoint has flushed. -/
def Ckpt.done : Ckpt → PageId → Prop
  | .files _ _ fds, p => p.fd ∉ fds
  | .shards _ _ fd fds k, p => p.fd ∉ fds ∧ (p.fd = fd → shardOfPage p < k)
  | .pages _ _ fd fds k todo, p =>
      p.fd ∉ fds ∧ (p.fd = fd → shardOfPage p < k ∨ (shardOfPage p = k ∧ p ∉ todo))
  | _, _ => False

namespace Server

variable {disk : Bytes} {files : List Int} {s s' : Server} {n off : Nat}

structure Ok (disk : Bytes) (s : Server) : Prop where
  conns : Conns.Ok disk s.toConns
  clean : ∀ p, p ∉ s.pool → s.disk p = s.pages p
  files : ∀ p, ∀ c ∈ s.pages p, p.fd ∈ s.files
  ckpt : ∀ off, s.ckpt.offset? = some off → ∃ n, Boundary disk s.log off n ∧ s.Covered n s.ckpt.done
  restart : ∀ off, s.restart = some off →
    ∃ n, Boundary disk s.log off n ∧ s.Covered n (fun _ => True)

theorem init_ok (disk : Bytes) (files : List Int) : Ok disk (init disk files) where
  conns := Conns.init_ok disk
  clean := fun _ _ => rfl
  files := fun p c hc => (by cases hc)
  ckpt := fun off h => (by cases h)
  restart := fun off h => (by cases h)

/-- At `cur_offset` nothing is buffered, and what is logged is in the pages. -/
def Careful (s : Server) : ServerAct → Prop
  | .nextCkpt => s.ckpt.reads = true → (s.log.bufs s.log.active).offset = 0 ∧
      ∀ x ∈ s.records, x.1 ∈ s.dropped ∨ x.1 ∈ s.pages x.1.page
  | _ => True

/-! ## Steps outside the checkpoint -/

theorem Boundary.step {m m' : LogManager} (h : Boundary disk m off n) (hb : m.batches <+: m'.batches) :
    Boundary disk m' off n := by
  obtain ⟨bs, rest, hm, hoff, hn⟩ := h
  obtain ⟨more, hmore⟩ := hb
  exact ⟨bs, rest ++ more, by rw [← hmore, hm, List.append_assoc], hoff, hn⟩

theorem Boundary.le_appended {m : LogManager} (h : Boundary disk m off n)
    (hinv : LogManager.Inv disk m) : n ≤ m.appended.length := by
  obtain ⟨bs, rest, hm, -, hn⟩ := h
  rw [hinv.split, hm, hn, entriesOf, entriesOf, List.flatMap_append, List.length_append,
    List.length_append]
  omega

/-- Pages only grow, a page on the disk changes to what is in the pool, nothing comes back. -/
structure Grown (s s' : Server) : Prop where
  conns : Conns.Grown s.toConns s'.toConns
  pages : ∀ p, s.pages p ⊆ s'.pages p
  disk : ∀ p, s'.disk p = s.disk p ∨ s'.disk p = s'.pages p
  dropped : s.dropped ⊆ s'.dropped

theorem grown_refl (s : Conns) : Conns.Grown s s :=
  ⟨.inl rfl, List.Subset.refl _, fun _ h => .inl h⟩

theorem Grown.batches (h : Grown s s') : s.log.batches <+: s'.log.batches := by
  rcases h.conns.log with hlog | ⟨a, ha⟩
  · rw [hlog]
  · exact LogManager.step_batches ha

theorem Covered.grow {done done' : PageId → Prop} (h : s.Covered n done) (hg : Grown s s')
    (hn : (n : Int) ≤ s.log.globalLsn)
    (hdone : ∀ p, done' p → done p ∨ s'.disk p = s'.pages p ∨ s.pages p = []) :
    s'.Covered n done' := by
  intro x hx hlt hdrop
  rcases hg.conns.fresh x hx with hx | hx
  · obtain ⟨hpage, hdisk⟩ := h x hx hlt fun hd => hdrop (hg.dropped hd)
    have hpage' := hg.pages _ hpage
    refine ⟨hpage', fun hd => ?_⟩
    rcases hdone x.1.page hd with hd | heq | hnil
    · rcases hg.disk x.1.page with heq | heq
      · rw [heq]
        exact hdisk hd
      · rw [heq]
        exact hpage'
    · rw [heq]
      exact hpage'
    · rw [hnil] at hpage
      cases hpage
  · -- a record of this step comes after the offset
    rw [hx] at hlt
    omega

theorem Boundary.le_global (h : Boundary disk s.log off n) (hok : Ok disk s) :
    (n : Int) ≤ s.log.globalLsn := by
  rw [hok.conns.log.global]
  exact Int.ofNat_le.2 (h.le_appended hok.conns.log)

/-- A step that reads no offset and writes no db.restart. -/
theorem Ok.grow (h : Ok disk s) (hg : Grown s s') (hconns : Conns.Ok disk s'.toConns)
    (hclean : ∀ p, p ∉ s'.pool → s'.disk p = s'.pages p)
    (hfiles : ∀ p, ∀ c ∈ s'.pages p, p.fd ∈ s'.files)
    (hoff : ∀ off, s'.ckpt.offset? = some off → s.ckpt.offset? = some off)
    (hdone : ∀ p, s'.ckpt.done p → s.ckpt.done p ∨ s'.disk p = s'.pages p ∨ s.pages p = [])
    (hrestart : s'.restart = s.restart) : Ok disk s' where
  conns := hconns
  clean := hclean
  files := hfiles
  ckpt := by
    intro off ho
    obtain ⟨n, hb, hc⟩ := h.ckpt off (hoff off ho)
    exact ⟨n, hb.step hg.batches, hc.grow hg (hb.le_global h) hdone⟩
  restart := by
    intro off ho
    rw [hrestart] at ho
    obtain ⟨n, hb, hc⟩ := h.restart off ho
    exact ⟨n, hb.step hg.batches, hc.grow hg (hb.le_global h) fun _ _ => .inl trivial⟩

/-- A step of the connections that changes no page. -/
theorem Ok.conn {a : ConnAct} (h : Ok disk s) (hs : s.conn a = some s')
    (hsmall : s'.log.appended.length < 2 ^ 31) : Ok disk s' := by
  obtain ⟨t, ht, hs⟩ := Option.map_eq_some_iff.1 hs
  cases hs
  have hg : Grown s { s with toConns := t } :=
    ⟨Conns.grown ht, fun _ => List.Subset.refl _, fun _ => .inl rfl, List.Subset.refl _⟩
  exact h.grow hg (h.conns.step ht hsmall) h.clean h.files (fun _ ho => ho) (fun _ hd => .inl hd) rfl

theorem conn_ckpt {a : ConnAct} (hs : s.conn a = some s') : s'.ckpt = s.ckpt := by
  obtain ⟨t, -, hs⟩ := Option.map_eq_some_iff.1 hs
  cases hs
  rfl

theorem applyChange_log {c : Change} (hs : s.applyChange c = some s') : s'.log = s.log := by
  obtain ⟨-, hs⟩ := Option.ite_none_right_eq_some.1 hs
  cases hs
  rfl

theorem Ok.applyChange {c : Change} (h : Ok disk s) (hs : s.applyChange c = some s') : Ok disk s' := by
  obtain ⟨⟨hpool, hfile⟩, hs⟩ := Option.ite_none_right_eq_some.1 hs
  cases hs
  have hother : ∀ p, p ≠ c.page →
      Function.update s.pages c.page (s.pages c.page ++ [c]) p = s.pages p := fun p hp =>
    Function.update_of_ne hp _ _
  refine h.grow ⟨grown_refl _, ?_, fun _ => .inl rfl, List.Subset.refl _⟩ h.conns ?_ ?_
    (fun _ ho => ho) (fun _ hd => .inl hd) rfl
  · intro p
    by_cases hp : p = c.page
    · rw [hp]
      show s.pages c.page ⊆ Function.update s.pages c.page (s.pages c.page ++ [c]) c.page
      rw [Function.update_self]
      exact List.subset_append_left _ _
    · show s.pages p ⊆ Function.update s.pages c.page (s.pages c.page ++ [c]) p
      rw [hother p hp]
      exact List.Subset.refl _
  · intro p hp
    have hne : p ≠ c.page := fun heq => hp (heq ▸ hpool)
    show s.disk p = Function.update s.pages c.page (s.pages c.page ++ [c]) p
    rw [hother p hne]
    exact h.clean p hp
  · intro p c' hc'
    by_cases hp : p = c.page
    · rw [hp]
      exact hfile
    · change c' ∈ Function.update s.pages c.page (s.pages c.page ++ [c]) p at hc'
      rw [hother p hp] at hc'
      exact h.files p c' hc'

/-- A page of the pool is written. -/
theorem update_disk (s : Server) (p q : PageId) :
    Function.update s.disk p (s.pages p) q = s.disk q ∨
      Function.update s.disk p (s.pages p) q = s.pages q := by
  by_cases hq : q = p
  · rw [hq, Function.update_self]
    exact .inr rfl
  · rw [Function.update_of_ne hq]
    exact .inl rfl

theorem Ok.writeBack {p : PageId} {drop : Bool} (h : Ok disk s) (hs : s.writeBack p drop = some s') :
    Ok disk s' := by
  obtain ⟨-, hs⟩ := Option.ite_none_right_eq_some.1 hs
  cases hs
  refine h.grow ⟨grown_refl _, fun _ => List.Subset.refl _, update_disk s p, List.Subset.refl _⟩
    h.conns ?_ h.files (fun _ ho => ho) (fun _ hd => .inl hd) rfl
  intro q hq
  by_cases hqp : q = p
  · rw [hqp]
    exact Function.update_self _ _ _
  · have hq' : q ∉ s.pool := by
      intro hmem
      cases drop with
      | true => exact hq ((List.mem_erase_of_ne hqp).2 hmem)
      | false => exact hq hmem
    show Function.update s.disk p (s.pages p) q = s.pages q
    rw [Function.update_of_ne hqp]
    exact h.clean q hq'

/-! ## Steps of the checkpoint -/

/-- The flushed pages so far are on the disk, whatever the checkpoint does next. -/
theorem Ok.setCkpt {c : Ckpt} (h : Ok disk s)
    (hoff : ∀ off, c.offset? = some off → s.ckpt.offset? = some off)
    (hdone : ∀ p, c.done p → s.ckpt.done p ∨ s.disk p = s.pages p ∨ s.pages p = []) :
    Ok disk { s with ckpt := c } :=
  h.grow ⟨grown_refl _, fun _ => List.Subset.refl _, fun _ => .inl rfl, List.Subset.refl _⟩ h.conns
    h.clean h.files hoff hdone rfl

/-- `cur_offset` when nothing is buffered. -/
theorem Ok.readOffset {i : Nat} (h : Ok disk s) (hempty : (s.log.bufs s.log.active).offset = 0)
    (hpages : ∀ x ∈ s.records, x.1 ∈ s.dropped ∨ x.1 ∈ s.pages x.1.page) :
    Ok disk { s with ckpt := .read i s.log.totalOffset } :=
  { h with
    ckpt := by
      intro off ho
      cases ho
      refine ⟨(entriesOf s.log.batches).length,
        ⟨s.log.batches, [], (List.append_nil _).symm, ?_, rfl⟩, fun x hx _ hdrop => ?_⟩
      · rw [h.conns.log.total, hempty, Nat.add_zero]
      · rcases hpages x hx with hd | hp
        · exact absurd hd hdrop
        · exact ⟨hp, fun hd => (by cases hd)⟩ }

theorem Ok.nextCkpt (h : Ok disk s) (hcare : s.Careful .nextCkpt) (hs : s.nextCkpt = some s')
    (hsmall : s'.log.appended.length < 2 ^ 31) : Ok disk s' := by
  simp only [Server.nextCkpt] at hs
  split at hs
  · rename_i i hc
    obtain ⟨-, hs⟩ := Option.ite_none_right_eq_some.1 hs
    cases hs
    obtain ⟨hempty, hpages⟩ := hcare (by rw [hc]; rfl)
    exact h.readOffset hempty hpages
  · rename_i i off hc
    obtain ⟨t, ht, hs⟩ := Option.map_eq_some_iff.1 hs
    cases hs
    have hok : Ok disk t := h.conn ht hsmall
    have hkeep := conn_ckpt ht
    exact hok.setCkpt (fun _ ho => by rw [hkeep, hc]; exact ho) fun _ hd => (by cases hd)
  · rename_i i off hc
    obtain ⟨t, ht, hs⟩ := Option.map_eq_some_iff.1 hs
    cases hs
    have hok : Ok disk t := h.conn ht hsmall
    have hkeep := conn_ckpt ht
    exact hok.setCkpt (fun _ ho => by rw [hkeep, hc]; exact ho) fun _ hd => (by cases hd)
  · rename_i i off hc
    obtain ⟨-, hs⟩ := Option.ite_none_right_eq_some.1 hs
    cases hs
    refine h.setCkpt (fun _ ho => by rw [hc]; exact ho) fun p hd => .inr (.inr ?_)
    rcases hp : s.pages p with _ | ⟨c, rest⟩
    · rfl
    · exact absurd (h.files p c (by rw [hp]; exact List.mem_cons_self)) hd
  · rename_i i off fd fds hc
    obtain ⟨t, ht, hs⟩ := Option.map_eq_some_iff.1 hs
    cases hs
    have hok : Ok disk t := h.conn ht hsmall
    have hkeep := conn_ckpt ht
    refine hok.setCkpt (fun _ ho => by rw [hkeep, hc]; exact ho) fun p hd => .inl ?_
    rw [hkeep, hc]
    intro hmem
    rcases List.mem_cons.1 hmem with heq | hmem
    · exact absurd (hd.2 heq) (Nat.not_lt_zero _)
    · exact hd.1 hmem
  · rename_i i off fd fds k hc
    obtain ⟨-, hs⟩ := Option.ite_none_right_eq_some.1 hs
    split at hs <;> cases hs
    · refine h.setCkpt (fun _ ho => by rw [hc]; exact ho) fun p hd => ?_
      by_cases hfd : p.fd = fd
      · rcases hd.2 hfd with hk | ⟨hk, htodo⟩
        · left
          rw [hc]
          exact ⟨hd.1, fun _ => hk⟩
        · right
          left
          refine h.clean p fun hpool => htodo ?_
          exact List.mem_filter.2 ⟨hpool, decide_eq_true ⟨hfd, hk⟩⟩
      · left
        rw [hc]
        exact ⟨hd.1, fun heq => absurd heq hfd⟩
    · refine h.setCkpt (fun _ ho => by rw [hc]; exact ho) fun p hd => .inl ?_
      rw [hc]
      refine ⟨hd, fun _ => Nat.lt_of_lt_of_le (Nat.mod_lt _ (by decide)) ?_⟩
      exact Nat.le_of_not_lt ‹_›
  · rename_i i off fd fds k hc
    cases hs
    refine h.setCkpt (fun _ ho => by rw [hc]; exact ho) fun p hd => .inl ?_
    rw [hc]
    refine ⟨hd.1, fun heq => ?_⟩
    rcases Nat.lt_succ_iff_lt_or_eq.1 (hd.2 heq) with hk | hk
    · exact .inl hk
    · exact .inr ⟨hk, List.not_mem_nil⟩
  · rename_i i off hc
    cases hs
    refine
      { conns := h.conns, clean := h.clean, files := h.files, ckpt := fun off ho => (by cases ho),
        restart := ?_ }
    intro off' ho
    cases ho
    obtain ⟨n, hb, hcov⟩ := h.ckpt off (by rw [hc]; rfl)
    refine ⟨n, hb, fun x hx hlt hdrop => ?_⟩
    obtain ⟨hpage, hdisk⟩ := hcov x hx hlt hdrop
    refine ⟨hpage, fun _ => hdisk ?_⟩
    rw [hc]
    exact List.not_mem_nil
  · cases hs

theorem Ok.writePage {p : PageId} (h : Ok disk s) (hs : s.writePage p = some s') : Ok disk s' := by
  simp only [Server.writePage] at hs
  split at hs
  · rename_i i off fd fds k todo hc
    obtain ⟨hp, hs⟩ := Option.ite_none_right_eq_some.1 hs
    cases hs
    refine h.grow ⟨grown_refl _, fun _ => List.Subset.refl _, update_disk s p, List.Subset.refl _⟩
      h.conns ?_ h.files (fun _ ho => by rw [hc]; exact ho) ?_ rfl
    · intro q hq
      rcases update_disk s p q with hd | hd
      · exact hd.trans (h.clean q hq)
      · exact hd
    · intro q hd
      by_cases hqp : q = p
      · rw [hqp]
        exact .inr (.inl (Function.update_self _ _ _))
      · left
        rw [hc]
        refine ⟨hd.1, fun hfd => (hd.2 hfd).imp_right fun hk => ⟨hk.1, fun hmem => hk.2 ?_⟩⟩
        exact (List.mem_erase_of_ne hqp).2 hmem
  · cases hs

/-! ## Every run -/

theorem Ok.step {act : ServerAct} (h : Ok disk s) (hcare : s.Careful act) (hs : s.step act = some s')
    (hsmall : s'.log.appended.length < 2 ^ 31) : Ok disk s' := by
  cases act with
  | load p =>
      obtain ⟨-, hs⟩ := Option.ite_none_right_eq_some.1 hs
      cases hs
      exact { h with clean := fun q hq => h.clean q fun hmem => hq (List.mem_cons_of_mem _ hmem) }
  | writeBack p drop => exact h.writeBack hs
  | change i p record =>
      obtain ⟨t, ht, hs⟩ := Option.bind_eq_some_iff.1 (Option.ite_none_right_eq_some.1 hs).2
      have hsmall' : t.log.appended.length < 2 ^ 31 := applyChange_log hs ▸ hsmall
      exact (h.conn ht hsmall').applyChange hs
  | logFirst i p record => exact h.conn (Option.ite_none_right_eq_some.1 hs).2 hsmall
  | addLog i other => exact h.conn (Option.ite_none_right_eq_some.1 hs).2 hsmall
  | addWoken i => exact h.conn hs hsmall
  | apply i c =>
      obtain ⟨t, ht, hs⟩ := Option.bind_eq_some_iff.1 (Option.ite_none_right_eq_some.1 hs).2
      have hsmall' : t.log.appended.length < 2 ^ 31 := applyChange_log hs ▸ hsmall
      exact (h.conn ht hsmall').applyChange hs
  | dropChange i c =>
      obtain ⟨t, ht, hs⟩ := Option.map_eq_some_iff.1 (Option.ite_none_right_eq_some.1 hs).2
      cases hs
      have hok : Ok disk t := h.conn ht hsmall
      exact hok.grow
        ⟨grown_refl _, fun _ => List.Subset.refl _, fun _ => .inl rfl, List.subset_cons_self _ _⟩
        hok.conns hok.clean hok.files (fun _ ho => ho) (fun _ hd => .inl hd) rfl
  | log a =>
      cases a with
      | flushLogToDisk | waitForPersist => exact h.conn (Option.ite_none_right_eq_some.1 hs).2 hsmall
      | addLog | addWoken => cases hs
      | checkPersist | requestFlush | wakePersist | wake | rest | swap | flush => exact h.conn hs hsmall
  | startCkpt i =>
      obtain ⟨t, ht, hs⟩ := Option.map_eq_some_iff.1 (Option.ite_none_right_eq_some.1 hs).2
      cases hs
      have hok : Ok disk t := h.conn ht hsmall
      exact hok.setCkpt (fun _ ho => (by cases ho)) fun _ hd => (by cases hd)
  | nextCkpt => exact h.nextCkpt hcare hs hsmall
  | writePage p => exact h.writePage hs

theorem conn_appended {a : ConnAct} (hs : s.conn a = some s') :
    s.log.appended.length ≤ s'.log.appended.length := by
  obtain ⟨t, ht, hs⟩ := Option.map_eq_some_iff.1 hs
  cases hs
  exact (Conns.grown ht).appended.length_le

/-- The log only grows. -/
theorem step_appended {act : ServerAct} (hs : s.step act = some s') :
    s.log.appended.length ≤ s'.log.appended.length := by
  have hkeep : ∀ {t : Server}, some t = some s' → t.log = s.log →
      s.log.appended.length ≤ s'.log.appended.length := fun ht hlog => by
    cases ht
    rw [hlog]
  cases act with
  | load p => exact hkeep (Option.ite_none_right_eq_some.1 hs).2 rfl
  | writeBack p drop => exact hkeep (Option.ite_none_right_eq_some.1 hs).2 rfl
  | change i p record =>
      obtain ⟨t, ht, hs⟩ := Option.bind_eq_some_iff.1 (Option.ite_none_right_eq_some.1 hs).2
      rw [applyChange_log hs]
      exact conn_appended ht
  | logFirst i p record => exact conn_appended (Option.ite_none_right_eq_some.1 hs).2
  | addLog i other => exact conn_appended (Option.ite_none_right_eq_some.1 hs).2
  | addWoken i => exact conn_appended hs
  | apply i c =>
      obtain ⟨t, ht, hs⟩ := Option.bind_eq_some_iff.1 (Option.ite_none_right_eq_some.1 hs).2
      rw [applyChange_log hs]
      exact conn_appended ht
  | dropChange i c =>
      obtain ⟨t, ht, hs⟩ := Option.map_eq_some_iff.1 (Option.ite_none_right_eq_some.1 hs).2
      have hle := conn_appended ht
      cases hs
      exact hle
  | log a =>
      cases a with
      | flushLogToDisk | waitForPersist => exact conn_appended (Option.ite_none_right_eq_some.1 hs).2
      | addLog | addWoken => cases hs
      | checkPersist | requestFlush | wakePersist | wake | rest | swap | flush => exact conn_appended hs
  | startCkpt i =>
      obtain ⟨t, ht, hs⟩ := Option.map_eq_some_iff.1 (Option.ite_none_right_eq_some.1 hs).2
      have hle := conn_appended ht
      cases hs
      exact hle
  | nextCkpt =>
      have hmap : ∀ {a c}, (s.conn a).map (fun t => { t with ckpt := c }) = some s' →
          s.log.appended.length ≤ s'.log.appended.length := fun hs => by
        obtain ⟨t, ht, hs⟩ := Option.map_eq_some_iff.1 hs
        have hle := conn_appended ht
        cases hs
        exact hle
      simp only [Server.step, Server.nextCkpt] at hs
      split at hs
      · exact hkeep (Option.ite_none_right_eq_some.1 hs).2 rfl
      · exact hmap hs
      · exact hmap hs
      · exact hkeep (Option.ite_none_right_eq_some.1 hs).2 rfl
      · exact hmap hs
      · have hs := (Option.ite_none_right_eq_some.1 hs).2
        split at hs
        · exact hkeep hs rfl
        · exact hkeep hs rfl
      · exact hkeep hs rfl
      · exact hkeep hs rfl
      · cases hs
  | writePage p =>
      simp only [Server.step, Server.writePage] at hs
      split at hs
      · exact hkeep (Option.ite_none_right_eq_some.1 hs).2 rfl
      · cases hs

/-- In every run of careful steps with fewer than 2^31 records the invariant holds. -/
theorem run_ok {acts : List ServerAct} (hrun : run Server.step (init disk files) acts = some s)
    (hcare : Along Server.step Careful (init disk files) acts)
    (hsmall : s.log.appended.length < 2 ^ 31) : Ok disk s := by
  have hkeep : ∀ s a s', (s.log.appended.length < 2 ^ 31 → Ok disk s) → Careful s a →
      Server.step s a = some s' → s'.log.appended.length < 2 ^ 31 → Ok disk s' :=
    fun s a s' h hcare hs hsmall' =>
      (h (Nat.lt_of_le_of_lt (step_appended hs) hsmall')).step hcare hs hsmall'
  exact run_invariant_along hkeep acts _ s (fun _ => init_ok disk files) hcare hrun hsmall

/-- db.restart holds the end of a batch, and the flushed pages have every change before it. -/
def RestartSafe (disk : Bytes) (s : Server) : Prop :=
  ∀ off, s.restart = some off → Contiguous disk.length s.log.batches ∧
    ∃ bs rest, s.log.batches = bs ++ rest ∧ off = disk.length + (framesOf bs).length ∧
      ∀ x ∈ s.records, x.2 ∈ entriesOf bs → x.1 ∉ s.dropped → x.1 ∈ s.disk x.1.page

instance (s : Server) : ∀ act, Decidable (s.Careful act)
  | .nextCkpt => inferInstanceAs (Decidable (s.ckpt.reads = true →
      (s.log.bufs s.log.active).offset = 0 ∧
        ∀ x ∈ s.records, x.1 ∈ s.dropped ∨ x.1 ∈ s.pages x.1.page))
  | .load _ | .writeBack _ _ | .change _ _ _ | .logFirst _ _ _ | .addLog _ _ | .addWoken _
  | .apply _ _ | .dropChange _ _ | .log _ | .startCkpt _ | .writePage _ => isTrue trivial

/-- Thread `i` waits until the worker has flushed the log. -/
def waitFlushed (i : Nat) : List ServerAct :=
  [.log (.checkPersist i), .log (.requestFlush i), .log .wake, .log .swap, .log .flush, .log .flush,
    .log .flush, .log .flush, .log .flush, .log .rest, .log (.wakePersist i)]

/-- The checkpoint of thread 1 from its second flush to the end; one page is resident. -/
def finishCkpt (p : PageId) : List ServerAct :=
  [.nextCkpt, .nextCkpt] ++ waitFlushed 1 ++ [.nextCkpt, .nextCkpt, .log (.checkPersist 1)] ++
    List.replicate (2 * shardOfPage p + 1) .nextCkpt ++ [.writePage p] ++
    List.replicate (2 * (bpmNshards - shardOfPage p) + 1) .nextCkpt

/-- A transaction inserts a record and commits, and then the checkpoint runs alone. -/
def quietCkpt : List ServerAct :=
  [.addLog 2 (.begin 1), .load ⟨3, 1⟩, .change 2 ⟨3, 1⟩ (.insert 1 ⟨"t", ⟨1, 0⟩⟩ [7]),
    .addLog 2 .ckpt, .addLog 2 (.commit 1), .startCkpt 1] ++ waitFlushed 1 ++
    [.nextCkpt] ++ finishCkpt ⟨3, 1⟩

/-- Another connection logs between the first flush and `cur_offset`. -/
def busyCkpt : List ServerAct :=
  [.addLog 2 (.begin 1), .load ⟨3, 1⟩, .startCkpt 1] ++ waitFlushed 1 ++
    [.change 2 ⟨3, 1⟩ (.insert 1 ⟨"t", ⟨1, 0⟩⟩ [7]), .addLog 2 .ckpt, .nextCkpt] ++
    finishCkpt ⟨3, 1⟩

end Server

end Rmdb.Wal
