import Rmdb.Index.Refine

/-!
# Index scans

`IxScan` from one position of an index to another, with the leaf it keeps cached, and the four calls
that give the positions.  A position behind the last slot of a leaf is given as slot 0 of the next leaf,
except at the end of the index (`At`), so the scan meets its end wherever it comes from
(`scan_entries`).
-/

namespace Rmdb.Index

/-! ## Positions -/

/-- `Iid`. -/
structure Iid where
  pageNo : Int
  slotNo : Nat
deriving DecidableEq, Repr

namespace IxIndexHandle

variable {K : Type} [LinearOrder K] [Inhabited K]

/-- The position of a slot of a leaf, on the next leaf if it lies behind the last slot. -/
def iidAt (s : IxIndexHandle K) (leafNo : Int) (leaf : IxPage K) (slot : Nat) : Iid :=
  if slot < leaf.getSize then ⟨leafNo, slot⟩
  else if leafNo = s.lastLeaf then ⟨leafNo, slot⟩
  else ⟨leaf.nextLeaf, 0⟩

def lowerBound (s : IxIndexHandle K) (key : K) : Option Iid := do
  let leafNo ← findLeafPage false s.rounds s key s.rootPage
  let leaf ← s.pages leafNo
  some (s.iidAt leafNo leaf (leaf.lowerBound key))

def upperBound (s : IxIndexHandle K) (key : K) : Option Iid := do
  let leafNo ← findLeafPage false s.rounds s key s.rootPage
  let leaf ← s.pages leafNo
  let slot := leaf.lowerBound key
  let slot := if slot < leaf.getSize ∧ leaf.getKey slot = key then slot + 1 else slot
  some (s.iidAt leafNo leaf slot)

def leafEnd (s : IxIndexHandle K) : Option Iid := do
  let node ← s.fetchNode s.lastLeaf
  some ⟨s.lastLeaf, node.getSize⟩

def leafBegin (s : IxIndexHandle K) : Iid := ⟨s.firstLeaf, 0⟩

end IxIndexHandle

/-! ## The scan -/

/-- `cachedNode` is the page that the cached node handle points to. -/
structure IxScan where
  iid : Iid
  end_ : Iid
  cachedPageNo : Int := ixNoPage
  cachedNode : Option Int := none
  cachedSize : Nat := 0

namespace IxScan

def releaseCached (sc : IxScan) : IxScan :=
  if sc.cachedNode.isSome then { sc with cachedNode := none, cachedPageNo := ixNoPage } else sc

variable {K : Type}

/-- The ring of leaves runs through the header page, which ends a scan. -/
def pageNoValid (s : IxIndexHandle K) (p : Int) : Bool :=
  decide (p > ixNoPage) && decide (p ≠ ixLeafHeaderPage) && decide (p < s.numPages)

def ensureCached (s : IxIndexHandle K) (sc : IxScan) (p : Int) : Option IxScan :=
  if !pageNoValid s p then some { sc with iid := sc.end_ }.releaseCached
  else do
    let sc ← (if p ≠ sc.cachedPageNo then do
        let _ ← s.fetchNode p
        some { sc.releaseCached with cachedNode := some p, cachedPageNo := p }
      else some sc)
    let node ← sc.cachedNode.bind s.pages
    some { sc with cachedSize := node.slots.length }

def advanceToNextLeaf (s : IxIndexHandle K) (sc : IxScan) : IxScan :=
  let nextPg := ((sc.cachedNode.bind s.pages).map IxPage.nextLeaf).getD ixNoPage
  let sc := sc.releaseCached
  if pageNoValid s nextPg then { sc with iid := ⟨nextPg, 0⟩ } else { sc with iid := sc.end_ }

def normalizePosition (s : IxIndexHandle K) : Nat → IxScan → Option IxScan
  | 0, _ => none
  | fuel + 1, sc =>
      if sc.iid = sc.end_ then some sc
      else if !pageNoValid s sc.iid.pageNo then some { sc with iid := sc.end_ }.releaseCached
      else do
        let sc ← ensureCached s sc sc.iid.pageNo
        if sc.iid = sc.end_ then some sc
        else if sc.iid.slotNo < sc.cachedSize then some sc
        else normalizePosition s fuel (advanceToNextLeaf s sc)

def next (s : IxIndexHandle K) (sc : IxScan) : Option IxScan := do
  let sc ← normalizePosition s s.rounds sc
  if sc.iid = sc.end_ then some sc
  else
    let sc := { sc with iid := ⟨sc.iid.pageNo, sc.iid.slotNo + 1⟩ }
    let sc ← ensureCached s sc sc.iid.pageNo
    if sc.iid = sc.end_ then some sc
    else if sc.iid.slotNo ≥ sc.cachedSize then some (advanceToNextLeaf s sc)
    else some sc

def isEnd (s : IxIndexHandle K) (sc : IxScan) : Option (IxScan × Bool) := do
  let sc ← normalizePosition s s.rounds sc
  some (sc, decide (sc.iid = sc.end_))

def rid (s : IxIndexHandle K) [Inhabited K] (sc : IxScan) : Option (IxScan × Rid) := do
  let sc ← normalizePosition s s.rounds sc
  if sc.iid = sc.end_ then some (sc, ⟨-1, -1⟩)
  else
    let sc ← ensureCached s sc sc.iid.pageNo
    if sc.iid = sc.end_ ∨ sc.iid.slotNo ≥ sc.cachedSize then some (sc, ⟨-1, -1⟩)
    else
      let node ← sc.cachedNode.bind s.pages
      some (sc, node.getRid sc.iid.slotNo)

/-- `for (; !scan.is_end(); scan.next())`, with what `rid()` gives at each round. -/
def rids (s : IxIndexHandle K) [Inhabited K] : Nat → IxScan → Option (List Rid)
  | 0, _ => none
  | fuel + 1, sc => do
      let (sc, done) ← isEnd s sc
      if done then some []
      else
        let (sc, r) ← rid s sc
        let sc ← next s sc
        let rest ← rids s fuel sc
        some (r :: rest)

end IxScan

/-! ## Where a position lies -/

section
variable {K : Type} {s : IxIndexHandle K} {l : List Int}

/-- The position `i` on the leaf between `A` and `B`, with the entries `X` before it and `Y` from it on;
behind the last slot it is on the last leaf only. -/
structure At (s : IxIndexHandle K) (l : List Int) (i : Iid) (X Y : List (K × Rid)) (A : List Int)
    (pg : IxPage K) (B : List Int) : Prop where
  level : l = A ++ i.pageNo :: B
  page : s.pages i.pageNo = some pg
  before : X = cat s A ++ pg.slots.take i.slotNo
  after : Y = pg.slots.drop i.slotNo ++ cat s B
  normal : i.slotNo < pg.slots.length ∨ i.slotNo = pg.slots.length ∧ B = []

def Position (s : IxIndexHandle K) (l : List Int) (i : Iid) (X Y : List (K × Rid)) : Prop :=
  ∃ A pg B, At s l i X Y A pg B

variable {i i' : Iid} {X X' Y Y' : List (K × Rid)} {A A' B B' : List Int} {pg pg' : IxPage K}

theorem At.slot_le (h : At s l i X Y A pg B) : i.slotNo ≤ pg.slots.length := by
  rcases h.normal with hlt | ⟨heq, -⟩
  · omega
  · omega

theorem At.length (h : At s l i X Y A pg B) : X.length = (cat s A).length + i.slotNo := by
  rw [h.before, List.length_append, List.length_take, Nat.min_eq_left h.slot_le]

theorem At.entries (h : At s l i X Y A pg B) : cat s l = X ++ Y := by
  rw [h.level, cat_append, cat_cons, slotsAt_eq h.page, h.before, h.after, List.append_assoc,
    ← List.append_assoc (pg.slots.take _), List.take_append_drop]

theorem Position.entries (h : Position s l i X Y) : cat s l = X ++ Y := by
  obtain ⟨A, pg, B, h⟩ := h
  exact h.entries

/-- A position on an earlier leaf has fewer entries before it. -/
theorem At.length_lt {C : List Int} (h : At s l i X Y A pg (C ++ i'.pageNo :: B'))
    (h' : At s l i' X' Y' (A ++ i.pageNo :: C) pg' B') : X.length < X'.length := by
  have hlt : i.slotNo < pg.slots.length := by
    rcases h.normal with hlt | ⟨-, hnil⟩
    · exact hlt
    · simp at hnil
  rw [h.length, h'.length, cat_append, cat_cons, slotsAt_eq h.page, List.length_append, List.length_append]
  omega

/-- Two positions are on one leaf, or one is on an earlier leaf. -/
theorem At.cases (h : At s l i X Y A pg B) (h' : At s l i' X' Y' A' pg' B') :
    (A = A' ∧ i.pageNo = i'.pageNo ∧ B = B') ∨
      (∃ C, A' = A ++ i.pageNo :: C ∧ B = C ++ i'.pageNo :: B') ∨
      ∃ C, A = A' ++ i'.pageNo :: C ∧ B' = C ++ i.pageNo :: B := by
  have heq := h.level.symm.trans h'.level
  rcases List.append_eq_append_iff.1 heq with ⟨C, hA, hB⟩ | ⟨C, hA, hB⟩
  · cases C with
    | nil =>
        rw [List.nil_append, List.cons.injEq] at hB
        exact .inl ⟨by rw [hA, List.append_nil], hB.1, hB.2⟩
    | cons c C =>
        rw [List.cons_append, List.cons.injEq] at hB
        exact .inr (.inl ⟨C, by rw [hA, hB.1], hB.2⟩)
  · cases C with
    | nil =>
        rw [List.nil_append, List.cons.injEq] at hB
        exact .inl ⟨by rw [hA, List.append_nil], hB.1.symm, hB.2.symm⟩
    | cons c C =>
        rw [List.cons_append, List.cons.injEq] at hB
        exact .inr (.inr ⟨C, by rw [hA, hB.1], hB.2⟩)

/-- **Every place has one position.** -/
theorem Position.unique (h : Position s l i X Y) (h' : Position s l i' X' Y')
    (hlen : X.length = X'.length) : i = i' := by
  obtain ⟨A, pg, B, h⟩ := h
  obtain ⟨A', pg', B', h'⟩ := h'
  rcases h.cases h' with ⟨rfl, hpage, rfl⟩ | ⟨C, rfl, rfl⟩ | ⟨C, rfl, rfl⟩
  · have hslot : i.slotNo = i'.slotNo := by
      have h1 := h.length
      have h2 := h'.length
      omega
    cases i
    cases i'
    exact Iid.mk.injEq _ _ _ _ ▸ ⟨hpage, hslot⟩
  · exact absurd hlen (h.length_lt h').ne
  · exact absurd hlen (h'.length_lt h).ne'

/-- On one leaf or not, a position has one list of entries before it. -/
theorem Position.functional (hnd : l.Nodup) (h : Position s l i X Y) (h' : Position s l i X' Y') :
    X = X' := by
  obtain ⟨A, pg, B, h⟩ := h
  obtain ⟨A', pg', B', h'⟩ := h'
  have htwice : ∀ {A C B : List Int} {p : Int}, ¬ (A ++ p :: (C ++ p :: B)).Nodup := by
    intro A C B p hn
    exact (List.nodup_cons.1 hn.of_append_right).1
      (List.mem_append_right _ List.mem_cons_self)
  rcases h.cases h' with ⟨rfl, -, rfl⟩ | ⟨C, rfl, rfl⟩ | ⟨C, rfl, rfl⟩
  · have hpg := h.page.symm.trans h'.page
    cases hpg
    rw [h.before, h'.before]
  · rw [h.level] at hnd
    exact absurd hnd htwice
  · rw [h'.level] at hnd
    exact absurd hnd htwice

/-- The entry at a position. -/
theorem At.entry {e : K × Rid} (h : At s l i X (e :: Y) A pg B) :
    ∃ hlt : i.slotNo < pg.slots.length, pg.slots[i.slotNo] = e ∧
      Y = pg.slots.drop (i.slotNo + 1) ++ cat s B := by
  have hafter := h.after
  rcases h.normal with hlt | ⟨hsize, rfl⟩
  · rw [List.drop_eq_getElem_cons hlt, List.cons_append, List.cons.injEq] at hafter
    exact ⟨hlt, hafter.1.symm, hafter.2⟩
  · rw [hsize, List.drop_length] at hafter
    cases hafter

end

/-! ## One call -/

section
variable {K : Type} [LinearOrder K] [Inhabited K]
variable {s : IxIndexHandle K} {l : List Int} {ls : List (List Int)}
variable {sc : IxScan} {X Y Z : List (K × Rid)} {A B : List Int} {pg : IxPage K} {p : Int}

namespace IxScan

/-- The scan with the page cached. -/
def caching (sc : IxScan) (p : Int) (size : Nat) : IxScan :=
  { sc with cachedPageNo := p, cachedNode := some p, cachedSize := size }

/-- Nothing is cached, or the page that the cached number says. -/
def CacheOk (sc : IxScan) : Prop :=
  sc.cachedNode = none ∧ sc.cachedPageNo = ixNoPage ∨ sc.cachedNode = some sc.cachedPageNo

theorem releaseCached_ok (h : sc.CacheOk) : sc.releaseCached.CacheOk := by
  unfold releaseCached
  split
  · exact .inl ⟨rfl, rfl⟩
  · exact h

theorem releaseCached_iid (sc : IxScan) :
    sc.releaseCached.iid = sc.iid ∧ sc.releaseCached.end_ = sc.end_ := by
  unfold releaseCached
  split
  · exact ⟨rfl, rfl⟩
  · exact ⟨rfl, rfl⟩

end IxScan

open IxScan

theorem Tree.pageNoValid (h : Tree s l ls) (hp : p ∈ l) : pageNoValid s p = true := by
  obtain ⟨hlow, hhigh⟩ := h.alloc.range p (List.mem_append_left _ hp)
  have hno : p > ixNoPage := by
    simp only [ixNoPage]
    omega
  have hheader : p ≠ ixLeafHeaderPage := by
    simp only [ixLeafHeaderPage]
    omega
  have hcount : p < s.numPages := by
    rw [h.alloc.counted]
    exact hhigh
  unfold IxScan.pageNoValid
  rw [decide_eq_true hno, decide_eq_true hheader, decide_eq_true hcount]
  rfl

theorem ensureCached_eq (h : Tree s l ls) (hp : p ∈ l) (hpg : s.pages p = some pg) (hc : sc.CacheOk) :
    ensureCached s sc p = some (sc.caching p pg.slots.length) := by
  have hfetch : s.fetchNode p = some pg := by
    rw [h.alloc.fetchNode (List.mem_append_left _ hp), hpg]
  have hno : p ≠ ixNoPage := by
    have hlow := (h.alloc.range p (List.mem_append_left _ hp)).1
    simp only [ixNoPage]
    omega
  unfold ensureCached
  rw [h.pageNoValid hp, Bool.not_true, if_neg Bool.false_ne_true]
  by_cases heq : p = sc.cachedPageNo
  · have hnode : sc.cachedNode = some p := by
      rcases hc with ⟨-, hnone⟩ | hsome
      · exact absurd (heq.trans hnone) hno
      · rw [hsome, heq]
    simp only [heq, ne_eq, not_true_eq_false, if_false]
    rw [← heq]
    simp [hnode, hpg, caching, ← heq]
  · rw [if_pos heq, hfetch]
    simp only [Option.bind_eq_bind, Option.bind_some, hpg]
    unfold releaseCached caching
    split <;> rfl

theorem caching_caching (sc : IxScan) (p : Int) (n m : Nat) :
    (sc.caching p n).caching p m = sc.caching p m := rfl

theorem caching_ok (sc : IxScan) (p : Int) (n : Nat) : (sc.caching p n).CacheOk := .inr rfl

theorem rounds_succ (h : Tree s l ls) : ∃ n, s.rounds = n + 1 := by
  have := h.length_lt
  exact ⟨s.rounds - 1, by omega⟩

theorem normalizePosition_end (h : Tree s l ls) (hend : sc.iid = sc.end_) :
    normalizePosition s s.rounds sc = some sc := by
  obtain ⟨n, hn⟩ := rounds_succ h
  rw [hn, normalizePosition, if_pos hend]

/-- At an entry the position stays, and its leaf is cached. -/
theorem normalizePosition_at {e : K × Rid} (h : Tree s l ls) (hat : At s l sc.iid X (e :: Y) A pg B)
    (hne : sc.iid ≠ sc.end_) (hc : sc.CacheOk) :
    normalizePosition s s.rounds sc = some (sc.caching sc.iid.pageNo pg.slots.length) := by
  obtain ⟨n, hn⟩ := rounds_succ h
  obtain ⟨hlt, -, -⟩ := hat.entry
  have hp : sc.iid.pageNo ∈ l := by
    rw [hat.level]
    exact List.mem_append_right _ List.mem_cons_self
  have hne' : (sc.caching sc.iid.pageNo pg.slots.length).iid ≠
      (sc.caching sc.iid.pageNo pg.slots.length).end_ := hne
  have hlt' : (sc.caching sc.iid.pageNo pg.slots.length).iid.slotNo <
      (sc.caching sc.iid.pageNo pg.slots.length).cachedSize := hlt
  rw [hn, normalizePosition, if_neg hne, h.pageNoValid hp, Bool.not_true, if_neg Bool.false_ne_true,
    ensureCached_eq h hp hat.page hc, Option.bind_eq_bind, Option.bind_some, if_neg hne', if_pos hlt']

/-- The scan is at a position with the entries `Z` up to its end. -/
structure Scanning (s : IxIndexHandle K) (l : List Int) (sc : IxScan) (X Z Y : List (K × Rid)) :
    Prop where
  at_ : Position s l sc.iid X (Z ++ Y)
  end_ : Position s l sc.end_ (X ++ Z) Y
  cache : sc.CacheOk

theorem Scanning.ne_end {e : K × Rid} (h : Tree s l ls) (hs : Scanning s l sc X (e :: Z) Y) :
    sc.iid ≠ sc.end_ := by
  intro heq
  have hend := hs.end_
  rw [← heq] at hend
  have := hs.at_.functional (h.alloc.nodup.sublist (List.sublist_append_left _ _)) hend
  simp at this

omit [LinearOrder K] [Inhabited K] in
theorem Scanning.caching (hs : Scanning s l sc X Z Y) (p : Int) (n : Nat) :
    Scanning s l (sc.caching p n) X Z Y := ⟨hs.at_, hs.end_, caching_ok sc p n⟩

theorem isEnd_nil (h : Tree s l ls) (hs : Scanning s l sc X [] Y) : isEnd s sc = some (sc, true) := by
  have hend : sc.iid = sc.end_ := by
    refine hs.at_.unique hs.end_ ?_
    rw [List.append_nil]
  unfold isEnd
  rw [normalizePosition_end h hend, Option.bind_eq_bind, Option.bind_some, decide_eq_true hend]

theorem isEnd_cons {e : K × Rid} (h : Tree s l ls) (hs : Scanning s l sc X (e :: Z) Y) :
    ∃ sc', isEnd s sc = some (sc', false) ∧ Scanning s l sc' X (e :: Z) Y := by
  have hne := hs.ne_end h
  obtain ⟨A, pg, B, hat⟩ := hs.at_
  have hs1 := hs.caching sc.iid.pageNo pg.slots.length
  refine ⟨_, ?_, hs1⟩
  unfold isEnd
  rw [normalizePosition_at h hat hne hs.cache, Option.bind_eq_bind, Option.bind_some,
    decide_eq_false (hs1.ne_end h)]

theorem rid_eq {e : K × Rid} (h : Tree s l ls) (hs : Scanning s l sc X (e :: Z) Y) :
    ∃ sc', rid s sc = some (sc', e.2) ∧ Scanning s l sc' X (e :: Z) Y := by
  have hne := hs.ne_end h
  obtain ⟨A, pg, B, hat⟩ := hs.at_
  have hs1 := hs.caching sc.iid.pageNo pg.slots.length
  have hp : sc.iid.pageNo ∈ l := by
    rw [hat.level]
    exact List.mem_append_right _ List.mem_cons_self
  obtain ⟨hlt, hentry, -⟩ := hat.entry
  have hensure := ensureCached_eq h hp hat.page hs1.cache
  have hinside : ¬ ((sc.caching sc.iid.pageNo pg.slots.length).iid =
        (sc.caching sc.iid.pageNo pg.slots.length).end_ ∨
      (sc.caching sc.iid.pageNo pg.slots.length).iid.slotNo ≥
        (sc.caching sc.iid.pageNo pg.slots.length).cachedSize) :=
    not_or.2 ⟨hs1.ne_end h, Nat.not_le.2 hlt⟩
  refine ⟨_, ?_, hs1⟩
  unfold rid
  rw [normalizePosition_at h hat hne hs.cache, Option.bind_eq_bind, Option.bind_some,
    if_neg (hs1.ne_end h)]
  show (ensureCached s (sc.caching sc.iid.pageNo pg.slots.length) sc.iid.pageNo).bind _ = _
  rw [hensure, Option.bind_some, caching_caching, if_neg hinside]
  show (s.pages sc.iid.pageNo).bind _ = _
  rw [hat.page, Option.bind_some]
  show some (_, (pg.slots.getD sc.iid.slotNo default).2) = _
  rw [List.getD_eq_getElem _ _ hlt, hentry]

omit [LinearOrder K] [Inhabited K] in
/-- The position behind an entry, written on the leaf of the entry. -/
theorem At.succ {e : K × Rid} (hat : At s l sc.iid X (e :: Y) A pg B) :
    cat s A ++ pg.slots.take (sc.iid.slotNo + 1) = X ++ [e] ∧
      pg.slots.drop (sc.iid.slotNo + 1) ++ cat s B = Y := by
  obtain ⟨hlt, hentry, hY⟩ := hat.entry
  refine ⟨?_, hY.symm⟩
  rw [List.take_succ_eq_append_getElem hlt, hentry, ← List.append_assoc, ← hat.before]

theorem Tree.nextAt_leaf (h : Tree s l ls) {x y : Int} (hl : l = A ++ x :: y :: B) : nextAt s x = y := by
  have hring := h.leaves.ring
  rw [hl, links_append] at hring
  exact hring.2.1.1

theorem Tree.nextAt_last (h : Tree s l ls) {x : Int} (hl : l = A ++ [x]) :
    nextAt s x = ixLeafHeaderPage := by
  have hring := h.leaves.ring
  rw [hl, links_append] at hring
  exact hring.2.1

/-- The first position of a leaf. -/
theorem Tree.at_leaf (h : Tree s l ls) {x y : Int} (hl : l = A ++ x :: y :: B) :
    Position s l ⟨y, 0⟩ (cat s (A ++ [x])) (cat s (y :: B)) := by
  have hmem : y ∈ l := by simp [hl]
  obtain ⟨pg, hpg, -⟩ := h.leaves.leaf y hmem
  have hls : ls ≠ [] := by
    intro hnil
    obtain ⟨p, hp⟩ := h.single hnil
    have hlen := congrArg List.length (hl.symm.trans hp)
    simp only [List.length_append, List.length_cons, List.length_nil] at hlen
    omega
  have hne := h.slots_ne_nil hls hmem
  rw [slotsAt_eq hpg] at hne
  refine ⟨A ++ [x], pg, B, ?_, hpg, ?_, ?_, .inl (List.length_pos_iff.2 hne)⟩
  · rw [hl, List.append_assoc]
    rfl
  · rw [List.take_zero, List.append_nil]
  · rw [List.drop_zero, cat_cons, slotsAt_eq hpg]

/-- **One round of the scan.** -/
theorem next_eq {e : K × Rid} (h : Tree s l ls) (hs : Scanning s l sc X (e :: Z) Y) :
    ∃ sc', next s sc = some sc' ∧ Scanning s l sc' (X ++ [e]) Z Y := by
  have hne := hs.ne_end h
  have hend := hs.end_
  obtain ⟨A, pg, B, hat⟩ := hs.at_
  obtain ⟨hlt, -, -⟩ := hat.entry
  obtain ⟨hbefore, hafter⟩ := hat.succ
  rw [List.append_eq] at hafter
  have hp : sc.iid.pageNo ∈ l := by
    rw [hat.level]
    exact List.mem_append_right _ List.mem_cons_self
  rw [List.append_cons] at hend
  -- the scan after `slot_no++`, with its leaf cached
  obtain ⟨sc2, hsc2⟩ : ∃ sc2, sc2 = { sc.caching sc.iid.pageNo pg.slots.length with
    iid := ⟨sc.iid.pageNo, sc.iid.slotNo + 1⟩ } := ⟨_, rfl⟩
  have hiid : sc2.iid = ⟨sc.iid.pageNo, sc.iid.slotNo + 1⟩ := by rw [hsc2]
  have hend2 : sc2.end_ = sc.end_ := by rw [hsc2]; rfl
  have hcache2 : sc2.CacheOk := by rw [hsc2]; exact .inr rfl
  have hrun : next s sc = if sc2.iid = sc2.end_ then some sc2
      else if sc2.iid.slotNo ≥ sc2.cachedSize then some (advanceToNextLeaf s sc2) else some sc2 := by
    have hensure := ensureCached_eq h hp hat.page hcache2
    have hsame : sc2.caching sc.iid.pageNo pg.slots.length = sc2 := by
      rw [hsc2]
      rfl
    unfold next
    rw [normalizePosition_at h hat hne hs.cache, Option.bind_eq_bind, Option.bind_some,
      if_neg ((hs.caching _ _).ne_end h)]
    show (ensureCached s { sc.caching sc.iid.pageNo pg.slots.length with
      iid := ⟨sc.iid.pageNo, sc.iid.slotNo + 1⟩ } sc.iid.pageNo).bind _ = _
    rw [← hsc2, hensure, Option.bind_some, hsame]
  rw [hrun]
  -- the position behind the entry, when it stays on the leaf
  have hstay : sc.iid.slotNo + 1 < pg.slots.length ∨ sc.iid.slotNo + 1 = pg.slots.length ∧ B = [] →
      Position s l sc2.iid (X ++ [e]) (Z ++ Y) := by
    intro hnormal
    rw [hiid]
    exact ⟨A, pg, B, hat.level, hat.page, hbefore.symm, hafter.symm, hnormal⟩
  have hsize : sc2.cachedSize = pg.slots.length := by rw [hsc2]; rfl
  rcases Nat.lt_or_ge (sc.iid.slotNo + 1) pg.slots.length with hin | hout
  · have hlt2 : ¬ sc2.iid.slotNo ≥ sc2.cachedSize := by
      rw [hiid, hsize]
      exact Nat.not_le.2 hin
    refine ⟨sc2, ?_, hstay (.inl hin), hend2 ▸ hend, hcache2⟩
    rw [if_neg hlt2, ite_self]
  · have heq : sc.iid.slotNo + 1 = pg.slots.length := by omega
    cases B with
    | nil =>
        -- behind the last entry of the index: the end is there, too
        have hpos := hstay (.inr ⟨heq, rfl⟩)
        rw [heq, List.drop_length] at hafter
        have hZ : Z = [] ∧ Y = [] := List.append_eq_nil_iff.1 hafter.symm
        have hdone : sc2.iid = sc2.end_ := by
          rw [hend2]
          refine hpos.unique hend ?_
          rw [hZ.1, List.append_nil]
        refine ⟨sc2, ?_, hpos, hend2 ▸ hend, hcache2⟩
        rw [if_pos hdone]
    | cons y B =>
        have hstart := h.at_leaf hat.level
        have hX : cat s (A ++ [sc.iid.pageNo]) = X ++ [e] := by
          rw [← hbefore, heq, List.take_length, cat_append, cat_cons, slotsAt_eq hat.page]
          simp
        have hY : cat s (y :: B) = Z ++ Y := by
          rw [← hafter, heq, List.drop_length, List.nil_append]
        rw [hX, hY] at hstart
        -- no position lies behind the last slot of this leaf
        have hne2 : sc2.iid ≠ sc2.end_ := by
          intro hdone
          rw [hend2, hiid] at hdone
          obtain ⟨A', pg', B', hat'⟩ := hend
          rw [← hdone] at hat'
          have hpg := hat.page.symm.trans hat'.page
          cases hpg
          rcases hat'.normal with hin | ⟨-, rfl⟩
          · exact absurd hin (by simp only; omega)
          · have hlast := h.nextAt_last hat'.level
            have hnext := h.nextAt_leaf hat.level
            have hy := (h.alloc.range y (List.mem_append_left _ (by simp [hat.level]))).1
            rw [hlast] at hnext
            simp only [ixLeafHeaderPage] at hnext
            omega
        have hnext : ((sc2.cachedNode.bind s.pages).map IxPage.nextLeaf).getD ixNoPage = y := by
          have hnode : sc2.cachedNode = some sc.iid.pageNo := by rw [hsc2]; rfl
          rw [hnode, Option.bind_some, hat.page, Option.map_some, Option.getD_some,
            ← nextAt_eq hat.page]
          exact h.nextAt_leaf hat.level
        have hge : sc2.iid.slotNo ≥ sc2.cachedSize := by
          rw [hiid, hsize]
          exact hout
        rw [if_neg hne2, if_pos hge]
        refine ⟨_, rfl, ?_⟩
        unfold advanceToNextLeaf
        rw [hnext]
        dsimp only
        rw [if_pos (h.pageNoValid (by simp [hat.level]))]
        refine ⟨hstart, ?_, ?_⟩
        · show Position s l sc2.releaseCached.end_ (X ++ [e] ++ Z) Y
          rw [(releaseCached_iid sc2).2, hend2]
          exact hend
        · exact releaseCached_ok hcache2

/-- The rids of the entries, in their order. -/
theorem rids_eq (h : Tree s l ls) : ∀ (Z : List (K × Rid)) (sc : IxScan) (X : List (K × Rid)) (n : Nat),
    Scanning s l sc X Z Y → Z.length < n → rids s n sc = some (Z.map Prod.snd) := by
  intro Z
  induction Z with
  | nil =>
      intro sc X n hs hn
      obtain ⟨n, rfl⟩ := Nat.exists_eq_add_one_of_ne_zero (by omega : n ≠ 0)
      rw [rids, isEnd_nil h hs]
      rfl
  | cons e Z ih =>
      intro sc X n hs hn
      obtain ⟨n, rfl⟩ := Nat.exists_eq_add_one_of_ne_zero (by omega : n ≠ 0)
      obtain ⟨sc1, hend, hs1⟩ := isEnd_cons h hs
      obtain ⟨sc2, hrid, hs2⟩ := rid_eq h hs1
      obtain ⟨sc3, hnext, hs3⟩ := next_eq h hs2
      rw [List.length_cons] at hn
      rw [rids, hend]
      show (rid s sc1).bind _ = _
      rw [hrid]
      show (next s sc2).bind _ = _
      rw [hnext]
      show (rids s n sc3).bind _ = _
      rw [ih sc3 (X ++ [e]) n hs3 (by omega)]
      rfl

/-! ## The bounds of a scan -/

/-- The calls that give a position. -/
inductive Bound (K : Type) where
  | leafBegin
  | leafEnd
  | lower (k : K)
  | upper (k : K)

def IxIndexHandle.boundIid (s : IxIndexHandle K) : Bound K → Option Iid
  | .leafBegin => some s.leafBegin
  | .leafEnd => s.leafEnd
  | .lower k => s.lowerBound k
  | .upper k => s.upperBound k

/-- Does the entry lie before the bound, by its key? -/
def Bound.before : Bound K → K × Rid → Bool
  | .leafBegin, _ => false
  | .leafEnd, _ => true
  | .lower k, e => decide (e.1 < k)
  | .upper k, e => decide (e.1 ≤ k)

/-- The last leaf is the one without a leaf behind it. -/
theorem Tree.last_iff (h : Tree s l ls) {x : Int} (hl : l = A ++ x :: B) : x = s.lastLeaf ↔ B = [] := by
  have hlast := h.leaves.last
  have hnd : l.Nodup := h.alloc.nodup.sublist (List.sublist_append_left l ls.flatten)
  constructor
  · intro heq
    by_contra hne
    rw [hl, List.append_cons, List.getLast?_append_of_ne_nil _ hne] at hlast
    have hmem := List.mem_of_getLast? hlast
    rw [hl] at hnd
    rw [← heq] at hmem
    exact (List.nodup_cons.1 hnd.of_append_right).1 hmem
  · rintro rfl
    rw [hl, List.getLast?_concat] at hlast
    exact Option.some.inj hlast

/-- A slot of a leaf, or the place behind its last slot, has its position. -/
theorem iidAt_position (h : Tree s l ls) {x : Int} (hl : l = A ++ x :: B) (hpg : s.pages x = some pg)
    {slot : Nat} (hslot : slot ≤ pg.slots.length) :
    Position s l (s.iidAt x pg slot) (cat s A ++ pg.slots.take slot) (pg.slots.drop slot ++ cat s B) := by
  unfold IxIndexHandle.iidAt
  by_cases hlt : slot < pg.getSize
  · rw [if_pos hlt]
    exact ⟨A, pg, B, hl, hpg, rfl, rfl, .inl hlt⟩
  · have hsize : slot = pg.slots.length := Nat.le_antisymm hslot (Nat.not_lt.1 hlt)
    rw [if_neg hlt]
    by_cases hlast : x = s.lastLeaf
    · rw [if_pos hlast]
      exact ⟨A, pg, B, hl, hpg, rfl, rfl, .inr ⟨hsize, (h.last_iff hl).1 hlast⟩⟩
    · rw [if_neg hlast]
      cases B with
      | nil => exact absurd ((h.last_iff hl).2 rfl) hlast
      | cons y B =>
          have hnext : pg.nextLeaf = y := (nextAt_eq hpg).symm.trans (h.nextAt_leaf hl)
          have hpos := h.at_leaf hl
          rw [cat_append, cat_cons, slotsAt_eq hpg, cat_nil, List.append_nil] at hpos
          rw [hnext, hsize, List.take_length, List.drop_length, List.nil_append]
          exact hpos

theorem leafBegin_position (h : Tree s l ls) : Position s l s.leafBegin [] (cat s l) := by
  obtain ⟨B, hl⟩ := List.head?_eq_some_iff.1 h.leaves.first
  obtain ⟨pg, hpg, -⟩ := h.leaves.leaf s.firstLeaf (by simp [hl])
  refine ⟨[], pg, B, hl, hpg, rfl, ?_, ?_⟩
  · rw [hl, cat_cons, slotsAt_eq hpg]
    rfl
  · rcases Nat.eq_zero_or_pos pg.slots.length with hzero | hpos
    · refine .inr ⟨hzero.symm, ?_⟩
      by_contra hne
      have hls : ls ≠ [] := by
        intro hnil
        obtain ⟨p, hp⟩ := h.single hnil
        rw [hl, List.cons.injEq] at hp
        exact hne hp.2
      refine h.slots_ne_nil hls (by simp [hl] : s.firstLeaf ∈ l) ?_
      rw [slotsAt_eq hpg, List.eq_nil_of_length_eq_zero hzero]
    · exact .inl hpos

theorem leafEnd_position (h : Tree s l ls) : ∃ i, s.leafEnd = some i ∧ Position s l i (cat s l) [] := by
  obtain ⟨A, hl⟩ := List.getLast?_eq_some_iff.1 h.leaves.last
  have hmem : s.lastLeaf ∈ l := by simp [hl]
  obtain ⟨pg, hpg, -⟩ := h.leaves.leaf s.lastLeaf hmem
  have hfetch : s.fetchNode s.lastLeaf = some pg := by
    rw [h.alloc.fetchNode (List.mem_append_left _ hmem), hpg]
  refine ⟨⟨s.lastLeaf, pg.slots.length⟩, ?_, A, pg, [], hl, hpg, ?_, ?_, .inr ⟨rfl, rfl⟩⟩
  · unfold IxIndexHandle.leafEnd
    rw [hfetch]
    rfl
  · rw [hl, cat_append, cat_cons, slotsAt_eq hpg, List.take_length]
    simp
  · rw [List.drop_length]
    rfl

/-- The slots of a leaf at the place that `upper_bound` takes. -/
theorem upperSlot_cut (pg : IxPage K) (k : K) (h : Increasing pg.slots) :
    ∃ slot, (if pg.lowerBound k < pg.getSize ∧ pg.getKey (pg.lowerBound k) = k then pg.lowerBound k + 1
        else pg.lowerBound k) = slot ∧ slot ≤ pg.slots.length ∧
      (∀ e ∈ pg.slots.take slot, e.1 ≤ k) ∧ ∀ e ∈ pg.slots.drop slot, k < e.1 := by
  obtain ⟨P, Q, hcut, hslot, hP, hQ⟩ := lowerBound_cut pg k h
  have hlen : pg.slots.length = P.length + Q.length := by rw [hcut, List.length_append]
  have hinc := h
  rw [hcut, increasing_append] at hinc
  refine ⟨_, rfl, ?_⟩
  rw [hslot]
  cases Q with
  | nil =>
      rw [if_neg (by rw [IxPage.getSize, hlen]; simp)]
      rw [hcut, List.append_nil, List.take_length, List.drop_length]
      exact ⟨Nat.le_refl _, fun e he => (hP e he).le, fun e he => by cases he⟩
  | cons q Q =>
      have hkey : pg.getKey P.length = q.1 := by
        simp [IxPage.getKey, hcut]
      have hQinc := increasing_cons.1 hinc.2.1
      rw [hkey]
      by_cases hq : q.1 = k
      · rw [if_pos ⟨by rw [IxPage.getSize, hlen]; simp, hq⟩]
        have htake : pg.slots.take (P.length + 1) = P ++ [q] := by
          rw [hcut, List.append_cons, List.take_left' (by simp)]
        have hdrop : pg.slots.drop (P.length + 1) = Q := by
          rw [hcut, List.append_cons, List.drop_left' (by simp)]
        rw [htake, hdrop]
        refine ⟨by rw [hlen]; simp, fun e he => ?_, fun e he => ?_⟩
        · rcases List.mem_append.1 he with he | he
          · exact (hP e he).le
          · rw [List.mem_singleton.1 he, hq]
        · rw [← hq]
          exact hQinc.1 e he
      · rw [if_neg fun hc => hq hc.2]
        rw [hcut, List.take_left, List.drop_left]
        refine ⟨by rw [List.length_append]; omega, fun e he => (hP e he).le, fun e he => ?_⟩
        have hkq : k < q.1 := lt_of_le_of_ne (hQ q List.mem_cons_self) (Ne.symm hq)
        rcases List.mem_cons.1 he with rfl | he
        · exact hkq
        · exact hkq.trans (hQinc.1 e he)

/-- **Every bound has a position, which cuts the entries by their keys.** -/
theorem boundIid_position (h : Tree s l ls) (b : Bound K) : ∃ i X Y, s.boundIid b = some i ∧
    Position s l i X Y ∧ (∀ e ∈ X, b.before e = true) ∧ ∀ e ∈ Y, b.before e = false := by
  cases b with
  | leafBegin =>
      exact ⟨_, _, _, rfl, leafBegin_position h, fun e he => absurd he List.not_mem_nil, fun e _ => rfl⟩
  | leafEnd =>
      obtain ⟨i, hi, hpos⟩ := leafEnd_position h
      exact ⟨i, _, _, hi, hpos, fun e _ => rfl, fun e he => absurd he List.not_mem_nil⟩
  | lower k =>
      obtain ⟨x, A, B, pg, hx, hrun⟩ := findLeafPage_spec h k
      have hinc : Increasing pg.slots := by
        rw [← slotsAt_eq hx.page]
        exact h.leaves.sorted.slotsAt (by simp [hx.level])
      obtain ⟨P, Q, hcut, hslot, hP, hQ⟩ := lowerBound_cut pg k hinc
      refine ⟨s.iidAt x pg (pg.lowerBound k), _, _, ?_, iidAt_position h hx.level hx.page ?_, ?_, ?_⟩
      · show s.lowerBound k = _
        simp [IxIndexHandle.lowerBound, hrun, hx.page]
      · rw [hslot, hcut, List.length_append]
        omega
      · rw [hslot, hcut, List.take_left]
        intro e he
        rcases List.mem_append.1 he with he | he
        · exact decide_eq_true (hx.before e he)
        · exact decide_eq_true (hP e he)
      · rw [hslot, hcut, List.drop_left]
        intro e he
        rcases List.mem_append.1 he with he | he
        · exact decide_eq_false (not_lt.2 (hQ e he))
        · exact decide_eq_false (not_lt.2 (hx.after e he).le)
  | upper k =>
      obtain ⟨x, A, B, pg, hx, hrun⟩ := findLeafPage_spec h k
      have hinc : Increasing pg.slots := by
        rw [← slotsAt_eq hx.page]
        exact h.leaves.sorted.slotsAt (by simp [hx.level])
      obtain ⟨slot, hslot, hle, htake, hdrop⟩ := upperSlot_cut pg k hinc
      refine ⟨s.iidAt x pg slot, _, _, ?_, iidAt_position h hx.level hx.page hle, ?_, ?_⟩
      · show s.upperBound k = _
        simp [IxIndexHandle.upperBound, hrun, hx.page, hslot]
      · intro e he
        rcases List.mem_append.1 he with he | he
        · exact decide_eq_true (hx.before e he).le
        · exact decide_eq_true (htake e he)
      · intro e he
        rcases List.mem_append.1 he with he | he
        · exact decide_eq_false (not_le.2 (hdrop e he))
        · exact decide_eq_false (not_le.2 (hx.after e he))

/-! ## Whole scans -/

def Bound.between (lo hi : Bound K) (e : K × Rid) : Bool := !lo.before e && hi.before e

/-- The entries of the index whose keys lie between the bounds, in key order. -/
def entriesBetween (s : IxIndexHandle K) (l : List Int) (lo hi : Bound K) : List (K × Rid) :=
  (cat s l).filter (lo.between hi)

/-- No entry lies before `lo` and not before `hi`. -/
def NotAfter (s : IxIndexHandle K) (l : List Int) (lo hi : Bound K) : Prop :=
  ∀ e ∈ cat s l, lo.before e = true → hi.before e = true

/-- From `lo` to `hi` a scan has the entries between them before it. -/
theorem scan_start (h : Tree s l ls) {lo hi : Bound K} (hle : NotAfter s l lo hi) :
    ∃ a b X Y, s.boundIid lo = some a ∧ s.boundIid hi = some b ∧
      Scanning s l { iid := a, end_ := b } X (entriesBetween s l lo hi) Y := by
  obtain ⟨a, X, Y, ha, hpos, hX, hY⟩ := boundIid_position h lo
  obtain ⟨b, X', Y', hb, hpos', hX', hY'⟩ := boundIid_position h hi
  have hcat := hpos.entries
  -- what lies before `lo` lies before `hi`
  obtain ⟨Z, rfl, rfl⟩ : ∃ Z, X' = X ++ Z ∧ Y = Z ++ Y' := by
    rcases List.append_eq_append_iff.1 (hcat.symm.trans hpos'.entries) with ⟨Z, h1, h2⟩ | ⟨Z, h1, h2⟩
    · exact ⟨Z, h1, h2⟩
    · cases Z with
      | nil => exact ⟨[], by rw [h1]; simp, by rw [h2]; rfl⟩
      | cons z Z =>
          have hlo := hX z (by simp [h1])
          have hhi := hY' z (by simp [h2])
          rw [hle z (by simp [hcat, h1]) hlo] at hhi
          cases hhi
  have hbetween : entriesBetween s l lo hi = Z := by
    unfold entriesBetween
    rw [hcat, List.filter_append, List.filter_append, List.filter_eq_nil_iff.2, List.filter_eq_self.2,
      List.filter_eq_nil_iff.2, List.nil_append, List.append_nil]
    · intro e he
      rw [Bound.between, hY' e he, Bool.and_false]
      exact Bool.false_ne_true
    · intro e he
      rw [Bound.between, hY e (List.mem_append_left _ he), hX' e (List.mem_append_right _ he)]
      rfl
    · intro e he
      rw [Bound.between, hX e he]
      exact Bool.false_ne_true
  rw [hbetween]
  exact ⟨a, b, X, Y', ha, hb, hpos, hpos', .inl ⟨rfl, rfl⟩⟩

theorem scan_entries (h : Tree s l ls) {lo hi : Bound K} (hle : NotAfter s l lo hi) :
    ∃ a b, s.boundIid lo = some a ∧ s.boundIid hi = some b ∧
      ∀ n, (entriesBetween s l lo hi).length < n →
        rids s n { iid := a, end_ := b } = some ((entriesBetween s l lo hi).map Prod.snd) := by
  obtain ⟨a, b, X, Y, ha, hb, hstart⟩ := scan_start h hle
  exact ⟨a, b, ha, hb, fun n hn => rids_eq h _ _ X n hstart hn⟩

omit [Inhabited K] in
/-- The entry of a key, if there is one. -/
theorem filter_key {E : List (K × Rid)} (hinc : Increasing E) (k : K) :
    (E.filter ((Bound.lower k).between (.upper k))).map Prod.snd = (E.lookup k).toList := by
  have hbetween : ∀ e : K × Rid, (Bound.lower k).between (.upper k) e = decide (e.1 = k) := by
    intro e
    simp only [Bound.between, Bound.before, ← decide_not, not_lt, ← Bool.decide_and]
    exact decide_eq_decide.2 ⟨fun h => le_antisymm h.2 h.1, fun h => ⟨h.ge, h.le⟩⟩
  induction E with
  | nil => rfl
  | cons e E ih =>
      obtain ⟨hhead, htail⟩ := increasing_cons.1 hinc
      by_cases heq : e.1 = k
      · have hnone : E.filter ((Bound.lower k).between (.upper k)) = [] := by
          refine List.filter_eq_nil_iff.2 fun e' he' => ?_
          rw [hbetween, decide_eq_true_eq, ← heq]
          exact (hhead e' he').ne'
        rw [List.filter_cons_of_pos (by rw [hbetween, decide_eq_true heq]), hnone, List.lookup_cons,
          beq_iff_eq.2 heq.symm]
        rfl
      · rw [List.filter_cons_of_neg (by rw [hbetween, decide_eq_true_eq]; exact heq), ih htail,
          List.lookup_cons, beq_eq_false_iff_ne.2 (Ne.symm heq)]

/-- **Index scans.**  A scan between two positions ends and gives the rids of the entries between them, each
once and in key order; from `lower_bound(k)` to `upper_bound(k)` that is the entry of `k`, if there is one. -/
theorem scan_spec (h : Tree s l ls) :
    Increasing (cat s l) ∧
      (∀ lo hi, NotAfter s l lo hi → ∃ a b, s.boundIid lo = some a ∧ s.boundIid hi = some b ∧
        ∀ n, (entriesBetween s l lo hi).length < n →
          rids s n { iid := a, end_ := b } = some ((entriesBetween s l lo hi).map Prod.snd)) ∧
      ∀ k, ∃ a b, s.lowerBound k = some a ∧ s.upperBound k = some b ∧
        ∀ n, 1 < n → rids s n { iid := a, end_ := b } = some ((cat s l).lookup k).toList := by
  refine ⟨h.leaves.sorted, fun lo hi hle => scan_entries h hle, fun k => ?_⟩
  have hle : NotAfter s l (.lower k) (.upper k) := by
    intro e _ hlt
    simp only [Bound.before, decide_eq_true_eq] at hlt ⊢
    exact hlt.le
  have hkey := filter_key h.leaves.sorted k
  obtain ⟨a, b, ha, hb, hscan⟩ := scan_entries h hle
  refine ⟨a, b, ha, hb, fun n hn => ?_⟩
  have hlen : (entriesBetween s l (.lower k) (.upper k)).length ≤ 1 := by
    rw [entriesBetween, ← List.length_map Prod.snd, hkey]
    cases (cat s l).lookup k with
    | none => exact Nat.zero_le 1
    | some r => exact Nat.le_refl 1
  rw [hscan n (by omega), entriesBetween, hkey]

end

/-- An index with the keys 1, 2 and 3. -/
theorem scan_spec_two : ∃ (s : IxIndexHandle Nat) (a b : Iid), s.lowerBound 2 = some a ∧
    s.upperBound 2 = some b ∧ IxScan.rids s 2 { iid := a, end_ := b } = some [⟨7, 2⟩] := by
  have h0 : Represents (createIndex 4 : IxIndexHandle Nat) fun _ => none :=
    represents_createIndex (by decide)
  obtain ⟨s1, -, h1⟩ := h0.apply (.insert 2 ⟨7, 2⟩)
  obtain ⟨s2, -, h2⟩ := h1.apply (.insert 3 ⟨7, 3⟩)
  obtain ⟨s3, -, l, ls, htree, hlookup⟩ := h2.apply (.insert 1 ⟨7, 1⟩)
  obtain ⟨a, b, ha, hb, hscan⟩ := (scan_spec htree).2.2 2
  refine ⟨s3, a, b, ha, hb, ?_⟩
  rw [hscan 2 (by decide), hlookup 2]
  decide

end Rmdb.Index
