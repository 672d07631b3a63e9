import Rmdb.Lib.Run
import Rmdb.Buffer.Pool

/-!
# The LRU replacer

src/replacer/lru_replacer.cpp with the nodes of `LRUlist_` and the iterators of `LRUhash_`.  A
node has an address, and an iterator is the address of its node; `pin` erases through an
iterator and is `none` when that node is no longer in the list.  `InStep` ties the hash to the
list, `Joined` is an unpin that takes its frame in; the two stay in step along all calls and the
list is ordered by the latest such unpins, newest first (`after_inStep`).  The
replacers of the pool are the frames of such lists (`BufferPool.Keeps`).
-/

namespace Rmdb.Buffer

open Rmdb.Lib (run run_append)

variable {φ : Type} [DecidableEq φ]

structure LRUReplacer (φ : Type) [DecidableEq φ] where
  /-- addresses and frames, front first -/
  lruList : List (Nat × φ)
  lruHash : AList fun _ : φ => Nat
  maxSize : Nat
  /-- the address of the next node -/
  fresh : Nat

inductive ReplacerCall (φ : Type) where
  | pin (f : φ)
  | unpin (f : φ)
  | victim
deriving DecidableEq, Repr

namespace LRUReplacer

def new (numPages : Nat) : LRUReplacer φ := ⟨[], ∅, numPages, 0⟩

variable (r : LRUReplacer φ)

def frames : List φ := r.lruList.map Prod.snd

/-- `false`, with nothing written to `*frame_id`, is `none`. -/
def victim : Option (φ × LRUReplacer φ) :=
  match r.lruList.getLast? with
  | none => none
  | some (_, f) => some (f, { r with lruList := r.lruList.dropLast, lruHash := r.lruHash.erase f })

/-- `LRUlist_.erase(it)`; `none` when the iterator dangles. -/
def eraseNode (it : Nat) : Option (List (Nat × φ)) :=
  if it ∈ r.lruList.map Prod.fst then some (r.lruList.filter fun e => e.1 ≠ it) else none

def pin (f : φ) : Option (LRUReplacer φ) :=
  match r.lruHash.lookup f with
  | none => some r
  | some it => (r.eraseNode it).map fun l => { r with lruList := l, lruHash := r.lruHash.erase f }

def unpin (f : φ) : LRUReplacer φ :=
  if f ∈ r.lruHash then r
  else if r.maxSize ≤ r.lruList.length then r
  else
    { r with
      lruList := (r.fresh, f) :: r.lruList
      lruHash := r.lruHash.insert f r.fresh
      fresh := r.fresh + 1 }

/-- One call; `none` when it goes through a dangling iterator. -/
def call (r : LRUReplacer φ) : ReplacerCall φ → Option (LRUReplacer φ)
  | .pin f => r.pin f
  | .unpin f => some (r.unpin f)
  | .victim => some (r.victim.elim r Prod.snd)

/-! ## Hash and list in step -/

/-- The hash leads from each frame of the list to its node, and from no other frame. -/
structure InStep : Prop where
  hash : ∀ f p, r.lruHash.lookup f = some p ↔ (p, f) ∈ r.lruList
  nodes : (r.lruList.map Prod.fst).Nodup
  fresh : ∀ e ∈ r.lruList, e.1 < r.fresh
  size : r.lruList.length ≤ r.maxSize

variable {r} {f : φ}

theorem frames_length : r.frames.length = r.lruList.length := List.length_map ..

theorem mem_frames : f ∈ r.frames ↔ ∃ p, (p, f) ∈ r.lruList := by
  unfold frames
  rw [List.mem_map]
  constructor
  · rintro ⟨⟨p, g⟩, he, rfl⟩
    exact ⟨p, he⟩
  · rintro ⟨p, he⟩
    exact ⟨(p, f), he, rfl⟩

theorem unpin_full (hfull : r.maxSize ≤ r.frames.length) : r.unpin f = r := by
  rw [frames_length] at hfull
  unfold unpin
  rw [if_pos hfull, ite_self]

theorem unpin_maxSize (f : φ) : (r.unpin f).maxSize = r.maxSize := by
  unfold unpin
  split
  · rfl
  · split
    · rfl
    · rfl

theorem victim_none : r.victim = none ↔ r.lruList = [] := by
  unfold victim
  cases hl : r.lruList.getLast? with
  | none => exact ⟨fun _ => List.getLast?_eq_none_iff.1 hl, fun _ => rfl⟩
  | some e =>
      refine ⟨fun hc => (by cases hc), fun hnil => ?_⟩
      rw [hnil] at hl
      cases hl

theorem inStep_new (numPages : Nat) : (new numPages : LRUReplacer φ).InStep where
  hash f p := by
    constructor
    · intro h
      rw [show (new numPages : LRUReplacer φ).lruHash.lookup f = none from AList.lookup_empty f] at h
      cases h
    · intro h
      cases h
  nodes := List.nodup_nil
  fresh e he := by cases he
  size := Nat.zero_le _

namespace InStep

variable (h : r.InStep)

include h

theorem mem_hash : f ∈ r.lruHash ↔ f ∈ r.frames := by
  rw [mem_frames, ← AList.lookup_isSome, Option.isSome_iff_exists]
  exact exists_congr fun p => h.hash f p

theorem eq_of_frame {p q : Nat} (hp : (p, f) ∈ r.lruList) (hq : (q, f) ∈ r.lruList) : p = q :=
  Option.some.inj (((h.hash f p).2 hp).symm.trans ((h.hash f q).2 hq))

theorem frames_nodup : r.frames.Nodup := by
  refine List.Nodup.map_on ?_ h.nodes.of_map
  rintro ⟨p, f⟩ hp ⟨q, g⟩ hq heq
  obtain rfl : f = g := heq
  rw [h.eq_of_frame hp hq]

/-- Without the node of `f` the list is that of the other frames. -/
theorem filter_node {it : Nat} (hit : (it, f) ∈ r.lruList) :
    (r.lruList.filter fun e => e.1 ≠ it) = r.lruList.filter fun e => e.2 ≠ f := by
  refine List.filter_congr fun e he => ?_
  have hiff : e.1 = it ↔ e.2 = f := by
    constructor
    · intro heq
      have := List.inj_on_of_nodup_map h.nodes he hit heq
      rw [this]
    · intro heq
      exact h.eq_of_frame (f := f) (by rw [← heq]; exact he) hit
  simp only [ne_eq, hiff]

/-- Part of the list with the hash of its frames. -/
theorem part {l : List (Nat × φ)} {hash : AList fun _ : φ => Nat} (hl : l.Sublist r.lruList)
    (hhash : ∀ g p, hash.lookup g = some p ↔ (p, g) ∈ l) :
    ({ r with lruList := l, lruHash := hash } : LRUReplacer φ).InStep where
  hash := hhash
  nodes := h.nodes.sublist (hl.map _)
  fresh e he := h.fresh e (hl.subset he)
  size := hl.length_le.trans h.size

/-- The hash without `f`, and the list without its node. -/
theorem erase_hash {l : List (Nat × φ)} (hl : ∀ e, e ∈ l ↔ e ∈ r.lruList ∧ e.2 ≠ f) (g : φ) (p : Nat) :
    (r.lruHash.erase f).lookup g = some p ↔ (p, g) ∈ l := by
  rw [hl]
  by_cases hg : g = f
  · subst hg
    rw [AList.lookup_erase]
    constructor
    · intro hc
      cases hc
    · exact fun hc => absurd rfl hc.2
  · rw [AList.lookup_erase_ne hg, h.hash]
    exact ⟨fun hm => ⟨hm, hg⟩, fun hm => hm.1⟩

/-- `pin` goes through no dangling iterator. -/
theorem pin (f : φ) : ∃ r', r.pin f = some r' ∧ r'.InStep ∧ r'.maxSize = r.maxSize ∧
    r'.frames = r.frames.erase f := by
  unfold LRUReplacer.pin
  cases hlook : r.lruHash.lookup f with
  | none =>
      have hf : f ∉ r.frames := by
        rw [← h.mem_hash]
        exact AList.lookup_eq_none.1 hlook
      exact ⟨r, rfl, h, rfl, (List.erase_of_not_mem hf).symm⟩
  | some it =>
      have hit := (h.hash f it).1 hlook
      have herase : r.eraseNode it = some (r.lruList.filter fun e => e.2 ≠ f) := by
        unfold eraseNode
        rw [if_pos (List.mem_map.2 ⟨_, hit, rfl⟩), h.filter_node hit]
      simp only [herase]
      refine ⟨_, rfl, h.part List.filter_sublist (h.erase_hash fun e => ?_), rfl, ?_⟩
      · rw [List.mem_filter, decide_eq_true_eq]
      · rw [h.frames_nodup.erase_eq_filter]
        show List.map Prod.snd (List.filter _ _) = List.filter _ (List.map Prod.snd _)
        rw [List.filter_map]
        refine congrArg _ (List.filter_congr fun e _ => ?_)
        simp [bne, Bool.beq_eq_decide_eq]

theorem unpin_mem (hf : f ∈ r.frames) : r.unpin f = r := if_pos (h.mem_hash.2 hf)

theorem unpin_new (hf : f ∉ r.frames) (hroom : r.frames.length < r.maxSize) :
    (r.unpin f).InStep ∧ (r.unpin f).frames = f :: r.frames := by
  rw [frames_length] at hroom
  unfold unpin
  rw [if_neg (mt h.mem_hash.1 hf), if_neg (by omega)]
  refine ⟨⟨?_, ?_, ?_, ?_⟩, rfl⟩
  · intro g p
    by_cases hg : g = f
    · subst hg
      rw [AList.lookup_insert, List.mem_cons]
      constructor
      · intro heq
        exact .inl (by rw [Option.some.inj heq])
      · rintro (heq | hold)
        · rw [(Prod.mk.inj heq).1]
        · exact absurd (mem_frames.2 ⟨p, hold⟩) hf
    · rw [AList.lookup_insert_ne hg, h.hash, List.mem_cons]
      constructor
      · exact .inr
      · rintro (heq | hold)
        · exact absurd (Prod.mk.inj heq).2 hg
        · exact hold
  · rw [List.map_cons, List.nodup_cons]
    refine ⟨fun hmem => ?_, h.nodes⟩
    obtain ⟨e, he, heq⟩ := List.mem_map.1 hmem
    exact absurd heq (h.fresh e he).ne
  · intro e he
    rcases List.mem_cons.1 he with rfl | he
    · exact Nat.lt_succ_self _
    · exact (h.fresh e he).trans (Nat.lt_succ_self _)
  · exact hroom

/-- The victim is the last frame of the list, and leaves it. -/
theorem victim {r' : LRUReplacer φ} (hv : r.victim = some (f, r')) :
    r'.InStep ∧ r'.maxSize = r.maxSize ∧ r.frames = r'.frames ++ [f] := by
  unfold LRUReplacer.victim at hv
  cases hl : r.lruList.getLast? with
  | none => simp [hl] at hv
  | some e =>
      obtain ⟨p, g⟩ := e
      simp only [hl, Option.some.injEq, Prod.mk.injEq] at hv
      obtain ⟨rfl, rfl⟩ := hv
      have hsplit : r.lruList = r.lruList.dropLast ++ [(p, g)] := by
        obtain ⟨ys, hys⟩ := List.getLast?_eq_some_iff.1 hl
        rw [hys, List.dropLast_concat]
      have hframes : r.frames = r.lruList.dropLast.map Prod.snd ++ [g] := by
        unfold frames
        rw [hsplit, List.map_append, List.dropLast_concat]
        rfl
      refine ⟨h.part (List.dropLast_sublist _) (h.erase_hash fun e => ?_), rfl, hframes⟩
      have hnd := h.frames_nodup
      rw [hframes, List.nodup_append] at hnd
      constructor
      · intro he
        refine ⟨List.dropLast_subset _ he, ?_⟩
        exact hnd.2.2 e.2 (List.mem_map_of_mem he) g List.mem_cons_self
      · rintro ⟨he, hne⟩
        rw [hsplit, List.mem_append, List.mem_singleton] at he
        rcases he with he | rfl
        · exact he
        · exact absurd rfl hne

end InStep

/-! ## The history of calls -/

/-- The replacer after `calls`. -/
def after (numPages : Nat) (calls : List (ReplacerCall φ)) : Option (LRUReplacer φ) :=
  run call (new numPages) calls

/-- Call `i` is an unpin that takes `f` in. -/
def Joined (numPages : Nat) (calls : List (ReplacerCall φ)) (f : φ) (i : Nat) : Prop :=
  calls[i]? = some (.unpin f) ∧ ∃ r r' : LRUReplacer φ, after numPages (calls.take i) = some r ∧
    after numPages (calls.take (i + 1)) = some r' ∧ f ∉ r.frames ∧ f ∈ r'.frames

/-- Call `i` is the latest unpin that took `f` in. -/
def LastJoined (numPages : Nat) (calls : List (ReplacerCall φ)) (f : φ) (i : Nat) : Prop :=
  IsGreatest {j | Joined numPages calls f j} i

variable {numPages : Nat} {calls : List (ReplacerCall φ)} {c : ReplacerCall φ} {i : Nat}

theorem after_concat : after numPages (calls ++ [c]) = (after numPages calls).bind fun r => r.call c := by
  unfold after
  rw [run_append]
  refine congrArg _ (funext fun r => ?_)
  show (r.call c).bind some = r.call c
  exact Option.bind_fun_some ..

theorem Joined.lt (h : Joined numPages calls f i) : i < calls.length := (List.getElem?_eq_some_iff.1 h.1).1

theorem joined_concat (hi : i < calls.length) :
    Joined numPages (calls ++ [c]) f i ↔ Joined numPages calls f i := by
  unfold Joined
  rw [List.getElem?_append_left hi, List.take_append_of_le_length (by omega),
    List.take_append_of_le_length (by omega)]

theorem joined_length (hr : after numPages calls = some r) (hf : f ∈ r.frames) :
    ¬ Joined numPages (calls ++ [c]) f calls.length := by
  rintro ⟨-, r0, -, hr0, -, hnot, -⟩
  rw [List.take_left, hr] at hr0
  exact hnot (Option.some.inj hr0 ▸ hf)

/-- A call after which `f` is still in the list does not change the latest unpin that took it in. -/
theorem lastJoined_concat (hr : after numPages calls = some r) (hf : f ∈ r.frames)
    (hlast : LastJoined numPages calls f i) : LastJoined numPages (calls ++ [c]) f i := by
  refine ⟨(joined_concat hlast.1.lt).2 hlast.1, fun j hj => ?_⟩
  rcases Nat.lt_or_ge j calls.length with hlt | hge
  · exact hlast.2 ((joined_concat hlt).1 hj)
  · have hlt := Joined.lt hj
    rw [List.length_append, List.length_singleton] at hlt
    obtain rfl : j = calls.length := by omega
    exact absurd hj (joined_length hr hf)

theorem lastJoined_new {r' : LRUReplacer φ} (hr : after numPages calls = some r)
    (hr' : after numPages (calls ++ [.unpin f]) = some r') (hnot : f ∉ r.frames) (hf : f ∈ r'.frames) :
    LastJoined numPages (calls ++ [.unpin f]) f calls.length := by
  refine ⟨⟨List.getElem?_concat_length, r, r', ?_, ?_, hnot, hf⟩, fun j hj => ?_⟩
  · rw [List.take_left]
    exact hr
  · rw [List.take_of_length_le (by rw [List.length_append, List.length_singleton])]
    exact hr'
  · have hlt := Joined.lt hj
    rw [List.length_append, List.length_singleton] at hlt
    omega

/-- The frames are in the order of the latest unpins that took them in, newest first. -/
def Ordered (numPages : Nat) (calls : List (ReplacerCall φ)) (frames : List φ) : Prop :=
  ∃ stamp : φ → Nat, (∀ f ∈ frames, LastJoined numPages calls f (stamp f)) ∧
    frames.Pairwise fun f g => stamp g < stamp f

/-- Frames that leave, or stay, keep the order of the others. -/
theorem Ordered.sublist {frames : List φ} (h : Ordered numPages calls r.frames)
    (hr : after numPages calls = some r) (hsub : frames.Sublist r.frames) :
    Ordered numPages (calls ++ [c]) frames := by
  obtain ⟨stamp, hlast, hord⟩ := h
  refine ⟨stamp, fun f hf => ?_, hord.sublist hsub⟩
  exact lastJoined_concat hr (hsub.subset hf) (hlast f (hsub.subset hf))

theorem Ordered.cons {r' : LRUReplacer φ} (h : Ordered numPages calls r.frames)
    (hr : after numPages calls = some r) (hr' : after numPages (calls ++ [.unpin f]) = some r')
    (hnot : f ∉ r.frames) (hframes : r'.frames = f :: r.frames) :
    Ordered numPages (calls ++ [.unpin f]) r'.frames := by
  obtain ⟨stamp, hlast, hord⟩ := h
  have hold : ∀ g ∈ r.frames, Function.update stamp f calls.length g = stamp g := by
    intro g hg
    refine Function.update_of_ne ?_ ..
    rintro rfl
    exact hnot hg
  refine ⟨Function.update stamp f calls.length, ?_, ?_⟩
  · rw [hframes]
    intro g hg
    rcases List.mem_cons.1 hg with rfl | hg
    · rw [Function.update_self]
      exact lastJoined_new hr hr' hnot (by rw [hframes]; exact List.mem_cons_self)
    · rw [hold g hg]
      exact lastJoined_concat hr hg (hlast g hg)
  · rw [hframes, List.pairwise_cons]
    constructor
    · intro g hg
      rw [Function.update_self, hold g hg]
      exact (hlast g hg).1.lt
    · refine hord.imp_of_mem ?_
      intro a b ha hb hab
      rwa [hold a ha, hold b hb]

/-- One more call. -/
theorem InStep.call (h : r.InStep) (hord : Ordered numPages calls r.frames)
    (hr : after numPages calls = some r) (c : ReplacerCall φ) :
    ∃ r', after numPages (calls ++ [c]) = some r' ∧ r'.InStep ∧ r'.maxSize = r.maxSize ∧
      Ordered numPages (calls ++ [c]) r'.frames := by
  have hstep : after numPages (calls ++ [c]) = r.call c := by
    rw [after_concat, hr]
    rfl
  cases c with
  | pin f =>
      obtain ⟨r', hpin, hin, hmax, hframes⟩ := h.pin f
      refine ⟨r', hstep.trans hpin, hin, hmax, hord.sublist hr ?_⟩
      rw [hframes]
      exact List.erase_sublist
  | unpin f =>
      by_cases hf : f ∈ r.frames
      · have hsame : r.unpin f = r := h.unpin_mem hf
        refine ⟨r, hstep.trans (congrArg some hsame), h, rfl, hord.sublist hr (List.Sublist.refl _)⟩
      · by_cases hfull : r.maxSize ≤ r.frames.length
        · have hsame : r.unpin f = r := unpin_full hfull
          refine ⟨r, hstep.trans (congrArg some hsame), h, rfl, hord.sublist hr (List.Sublist.refl _)⟩
        · obtain ⟨hin, hframes⟩ := h.unpin_new hf (not_le.1 hfull)
          exact ⟨r.unpin f, hstep, hin, unpin_maxSize f, hord.cons hr hstep hf hframes⟩
  | victim =>
      cases hv : r.victim with
      | none =>
          refine ⟨r, hstep.trans ?_, h, rfl, hord.sublist hr (List.Sublist.refl _)⟩
          show some (r.victim.elim r Prod.snd) = some r
          rw [hv]
          rfl
      | some p =>
          obtain ⟨f, r'⟩ := p
          obtain ⟨hin, hmax, hframes⟩ := h.victim hv
          refine ⟨r', hstep.trans ?_, hin, hmax, hord.sublist hr ?_⟩
          · show some (r.victim.elim r Prod.snd) = some r'
            rw [hv]
            rfl
          · rw [hframes]
            exact List.sublist_append_left ..

/-- After any calls hash and list are in step and the list is ordered. -/
theorem after_inStep (numPages : Nat) (calls : List (ReplacerCall φ)) :
    ∃ r, after numPages calls = some r ∧ r.InStep ∧ r.maxSize = numPages ∧
      Ordered numPages calls r.frames := by
  induction calls using List.reverseRecOn with
  | nil =>
      exact ⟨new numPages, rfl, inStep_new numPages, rfl, fun _ => 0,
        fun f hf => absurd hf List.not_mem_nil, List.Pairwise.nil⟩
  | append_singleton calls c ih =>
      obtain ⟨r, hr, hin, hmax, hord⟩ := ih
      obtain ⟨r', hr', hin', hmax', hord'⟩ := hin.call hord hr c
      exact ⟨r', hr', hin', hmax'.trans hmax, hord'⟩

/-- Along all calls: the hash leads exactly to the nodes of the list, each at its own address;
no frame is there twice, and never more than `max_size_`; a pin takes its frame out and no other, and
an unpin puts its frame in when there is room; an unpin of a frame that is there changes nothing;
`victim` fails on the empty list only, and otherwise returns the frame that was taken in
longest ago. -/
theorem victim_oldest (numPages : Nat) (calls : List (ReplacerCall φ)) :
    ∃ r, after numPages calls = some r ∧
      (∀ f p, r.lruHash.lookup f = some p ↔ (p, f) ∈ r.lruList) ∧ (r.lruList.map Prod.fst).Nodup ∧
      r.frames.Nodup ∧ r.frames.length ≤ numPages ∧
      (∀ f, ∃ r', r.pin f = some r' ∧ r'.frames = r.frames.erase f) ∧
      (∀ f, (r.unpin f).frames =
        if f ∉ r.frames ∧ r.frames.length < numPages then f :: r.frames else r.frames) ∧
      (∀ f ∈ r.frames, r.unpin f = r) ∧
      (r.victim = none ↔ r.frames = []) ∧
      ∀ f r', r.victim = some (f, r') → f ∈ r.frames ∧ f ∉ r'.frames ∧
        (∀ g, g ≠ f → (g ∈ r'.frames ↔ g ∈ r.frames)) ∧
        ∃ i, LastJoined numPages calls f i ∧
          ∀ g ∈ r.frames, g ≠ f → ∃ j, LastJoined numPages calls g j ∧ i < j := by
  obtain ⟨r, hr, h, hmax, stamp, hlast, hord⟩ := after_inStep numPages calls
  refine ⟨r, hr, h.hash, h.nodes, h.frames_nodup, ?_, fun f => ?_, fun f => ?_, fun f => h.unpin_mem, ?_, ?_⟩
  · rw [frames_length, ← hmax]
    exact h.size
  · obtain ⟨r', hpin, -, -, hframes⟩ := h.pin f
    exact ⟨r', hpin, hframes⟩
  · split
    · next hin => exact (h.unpin_new hin.1 (hmax ▸ hin.2)).2
    · next hout =>
        by_cases hf : f ∈ r.frames
        · rw [h.unpin_mem hf]
        · rw [unpin_full (by rw [hmax]; exact not_lt.1 fun hlt => hout ⟨hf, hlt⟩)]
  · rw [victim_none]
    exact List.map_eq_nil_iff.symm
  · intro f r' hv
    obtain ⟨-, -, hframes⟩ := h.victim hv
    have hf : f ∈ r.frames := by
      rw [hframes]
      exact List.mem_append_right _ List.mem_cons_self
    have hnd := h.frames_nodup
    rw [hframes, List.nodup_append] at hnd
    refine ⟨hf, fun hc => hnd.2.2 f hc f List.mem_cons_self rfl, fun g hg => ?_, stamp f, hlast f hf, ?_⟩
    · rw [hframes, List.mem_append, List.mem_singleton]
      exact ⟨.inl, fun hm => hm.resolve_right hg⟩
    · intro g hg hne
      refine ⟨stamp g, hlast g hg, ?_⟩
      rw [hframes, List.pairwise_append] at hord
      rw [hframes, List.mem_append, List.mem_singleton] at hg
      exact hord.2.2 g (hg.resolve_right hne) f List.mem_cons_self

end LRUReplacer

/-! ## The replacers of the pool -/

namespace BufferPool

variable {α : Type} {m : BufferPool α} {s : Nat} {r : LRUReplacer FrameId} {f : FrameId}

/-- The pool keeps the frames of `r` as the list of shard `s`. -/
structure Keeps (m : BufferPool α) (s : Nat) (r : LRUReplacer FrameId) : Prop where
  frames : m.replacer s = r.frames
  size : m.poolSize = r.maxSize
  inStep : r.InStep

theorem Keeps.lruPin (h : m.Keeps s r) (f : FrameId) : ∃ r', r.pin f = some r' ∧ (m.lruPin s f).Keeps s r' := by
  obtain ⟨r', hpin, hin, hmax, hframes⟩ := h.inStep.pin f
  refine ⟨r', hpin, ?_, h.size.trans hmax.symm, hin⟩
  show Function.update m.replacer s ((m.replacer s).erase f) s = r'.frames
  rw [Function.update_self, hframes, h.frames]

theorem Keeps.lruUnpin (h : m.Keeps s r) (f : FrameId) : (m.lruUnpin s f).Keeps s (r.unpin f) := by
  unfold BufferPool.lruUnpin
  rw [h.frames, h.size]
  by_cases hf : f ∈ r.frames
  · rw [if_pos hf, h.inStep.unpin_mem hf]
    exact h
  · rw [if_neg hf]
    by_cases hfull : r.maxSize ≤ r.frames.length
    · rw [if_pos hfull, LRUReplacer.unpin_full hfull]
      exact h
    · rw [if_neg hfull]
      obtain ⟨hin, hframes⟩ := h.inStep.unpin_new hf (not_le.1 hfull)
      refine ⟨?_, (LRUReplacer.unpin_maxSize f).symm, hin⟩
      show Function.update m.replacer s (f :: r.frames) s = (r.unpin f).frames
      rw [Function.update_self, hframes]

theorem Keeps.lruVictim_none (h : m.Keeps s r) (hv : r.victim = none) : m.lruVictim s = none := by
  have hnil : r.frames = [] := List.map_eq_nil_iff.2 (LRUReplacer.victim_none.1 hv)
  unfold BufferPool.lruVictim
  simp only [h.frames, hnil, List.getLast?_nil]

theorem Keeps.lruVictim_some (h : m.Keeps s r) {r' : LRUReplacer FrameId} (hv : r.victim = some (f, r')) :
    ∃ m', m.lruVictim s = some (f, m') ∧ m'.Keeps s r' := by
  obtain ⟨hin, hmax, hframes⟩ := h.inStep.victim hv
  unfold BufferPool.lruVictim
  simp only [h.frames, hframes, List.getLast?_concat, List.dropLast_concat]
  refine ⟨_, rfl, ?_, h.size.trans hmax.symm, hin⟩
  exact Function.update_self ..

end BufferPool

end Rmdb.Buffer
