import Rmdb.Index.Node

/-!
# The B+tree of one index file

`IxIndexHandle K` is the open index: the file header, the page counter of the disk
manager for the file, the cached and pinned last leaf of sequential inserts, and the
pages by number.  The functions are those of `IxIndexHandle`; `none` stands for an
exception or a failed assertion, and the loops and recursions that climb the tree take
the number of rounds they may use.  `delete_page` flushes the page and drops its frame,
so the bytes of a deleted page stay in the file: it changes nothing here.  Pins are not
counted, page numbers do not overflow.
-/

namespace Rmdb.Index

structure IxIndexHandle (K : Type) where
  numPages : Int
  rootPage : Int
  btreeOrder : Nat
  firstLeaf : Int
  lastLeaf : Int
  /-- `fd2pageno_[fd]` -/
  nextPageNo : Int
  cachedLeafNo : Int
  pinnedLeafNo : Int
  pinnedLeafPage : Option Int
  pages : Int → Option (IxPage K)

namespace IxIndexHandle

variable {K : Type}

def getMaxSize (s : IxIndexHandle K) : Nat := s.btreeOrder + 1
def getMinSize (s : IxIndexHandle K) : Nat := s.getMaxSize / 2

/-- Write the page a node handle points to. -/
def setNode (s : IxIndexHandle K) (p : Int) (pg : IxPage K) : IxIndexHandle K :=
  { s with pages := fun q => if q = p then some pg else s.pages q }

def fetchNode (s : IxIndexHandle K) (p : Int) : Option (IxPage K) :=
  if p ≤ ixNoPage ∨ p ≥ s.numPages then none else s.pages p

def createNode (s : IxIndexHandle K) : IxIndexHandle K × Int :=
  ({ s.setNode s.nextPageNo IxPage.zero with
      numPages := s.numPages + 1, nextPageNo := s.nextPageNo + 1 }, s.nextPageNo)

def releasePinnedLeaf (s : IxIndexHandle K) : IxIndexHandle K :=
  if s.pinnedLeafPage.isSome then { s with pinnedLeafPage := none, pinnedLeafNo := ixNoPage }
  else s

variable [Inhabited K]

/-- Make `node` the parent of its `i`-th child. -/
def maintainChild (s : IxIndexHandle K) (node : Int) (i : Nat) : Option (IxIndexHandle K) := do
  let pg ← s.pages node
  if pg.isLeaf then some s
  else
    let child ← s.fetchNode (pg.valueAt i)
    some (s.setNode (pg.valueAt i) (child.setParentPageNo node))

/-- `for (i = 0; i < n; i++) maintain_child(node, first + i)`. -/
def maintainChildren (s : IxIndexHandle K) (node : Int) (first n : Nat) :
    Option (IxIndexHandle K) :=
  (List.range n).foldlM (fun s i => s.maintainChild node (first + i)) s

/-- Carry a changed first key of `curr` up to the root. -/
def maintainParent [DecidableEq K] :
    Nat → IxIndexHandle K → Int → Option (IxIndexHandle K)
  | 0, _, _ => none
  | fuel + 1, s, curr => do
      let pg ← s.pages curr
      if pg.parent = ixNoPage then some s
      else
        let parent ← s.fetchNode pg.parent
        let rank ← parent.findChild curr
        if parent.getKey rank = pg.getKey 0 then some s
        else maintainParent fuel (s.setNode pg.parent (parent.setKey rank (pg.getKey 0))) pg.parent

/-- Move the right half of `node` to a new page, which is returned. -/
def split (s : IxIndexHandle K) (node : Int) : Option (IxIndexHandle K × Int) := do
  let pg ← s.pages node
  let (s, newNo) := s.createNode
  let splitPos := pg.getSize / 2
  let newPg : IxPage K := { IxPage.zero with isLeaf := pg.isLeaf, parent := pg.parent }
  let newPg := newPg.insertPairs 0 (pg.slots.drop splitPos)
  let pg := pg.setSize splitPos
  if pg.isLeaf then
    let oldNext := pg.nextLeaf
    let newPg := (newPg.setNextLeaf oldNext).setPrevLeaf node
    let s := (s.setNode newNo newPg).setNode node (pg.setNextLeaf newNo)
    let s ← (if oldNext > ixNoPage then do
        let next ← s.fetchNode oldNext
        some (s.setNode oldNext (next.setPrevLeaf newNo))
      else some s)
    some (if node = s.lastLeaf then { s with lastLeaf := newNo } else s, newNo)
  else
    let s := (s.setNode newNo newPg).setNode node pg
    let s ← s.maintainChildren newNo 0 newPg.getSize
    some (s, newNo)

/-- Enter the new right neighbour `new` of `old` into their parent, splitting upwards. -/
def insertIntoParent :
    Nat → IxIndexHandle K → Int → K → Int → Option (IxIndexHandle K)
  | 0, _, _, _, _ => none
  | fuel + 1, s, old, key, new => do
      let oldPg ← s.pages old
      if oldPg.parent = ixNoPage then
        let (s, rootNo) := s.createNode
        let root : IxPage K := { IxPage.zero with isLeaf := false, parent := ixNoPage }
        let root := root.insertPair 0 (oldPg.getKey 0) (childRid old)
        let root := root.insertPair 1 key (childRid new)
        let s := (s.setNode rootNo root).setNode old (oldPg.setParentPageNo rootNo)
        let newPg ← s.pages new
        let s := s.setNode new (newPg.setParentPageNo rootNo)
        some { s with rootPage := rootNo }
      else
        let parentNo := oldPg.parent
        let parent ← s.fetchNode parentNo
        let oldIdx ← parent.findChild old
        let parent := parent.insertPair (oldIdx + 1) key (childRid new)
        let s := s.setNode parentNo parent
        let newPg ← s.pages new
        let s := s.setNode new (newPg.setParentPageNo parentNo)
        if parent.getSize ≥ s.getMaxSize then
          let (s, newParentNo) ← s.split parentNo
          let newParent ← s.pages newParentNo
          insertIntoParent fuel s parentNo (newParent.getKey 0) newParentNo
        else some s

/-- The root after an entry was taken from it: an internal root with one child gives way. -/
def adjustRoot (s : IxIndexHandle K) (oldRoot : Int) : Option (IxIndexHandle K × Bool) := do
  let pg ← s.pages oldRoot
  if ¬ pg.isLeaf ∧ pg.getSize = 1 then
    let childNo := pg.valueAt 0
    let child ← s.fetchNode childNo
    some ({ s.setNode childNo (child.setParentPageNo ixNoPage) with rootPage := childNo }, true)
  else some (s, false)

/-- Move one entry from `neighbor` to `node`; `index` is the place of `node` in `parent`. -/
def redistribute (s : IxIndexHandle K) (neighbor node parent : Int) (index : Nat) :
    Option (IxIndexHandle K) := do
  let nb ← s.pages neighbor
  let nd ← s.pages node
  if index = 0 then
    let s := s.setNode node (nd.insertPair nd.getSize (nb.getKey 0) (nb.getRid 0))
    let s ← (if ¬ nd.isLeaf then s.maintainChild node nd.getSize else some s)
    let nb := nb.erasePair 0
    let s := s.setNode neighbor nb
    let par ← s.pages parent
    some (s.setNode parent (par.setKey 1 (nb.getKey 0)))
  else
    let key := nb.getKey (nb.getSize - 1)
    let s := s.setNode node (nd.insertPair 0 key (nb.getRid (nb.getSize - 1)))
    let s ← (if ¬ nd.isLeaf then s.maintainChild node 0 else some s)
    let s := s.setNode neighbor (nb.erasePair (nb.getSize - 1))
    let par ← s.pages parent
    some (s.setNode parent (par.setKey index key))

/-- Append the right node of the pair to the left one and take its entry out of `parent`;
the caller then looks at `parent`. -/
def coalesce (s : IxIndexHandle K) (neighbor node parent : Int) (index : Nat) :
    Option (IxIndexHandle K) := do
  let left := if index = 0 then node else neighbor
  let right := if index = 0 then neighbor else node
  let index := if index = 0 then 1 else index
  let lpg ← s.pages left
  let rpg ← s.pages right
  let s := s.setNode left (lpg.insertPairs lpg.getSize rpg.slots)
  let s ← (if ¬ lpg.isLeaf then s.maintainChildren left lpg.getSize rpg.getSize else some s)
  let s ← (if rpg.isLeaf then do
      let lpg ← s.pages left
      let s := s.setNode left (lpg.setNextLeaf rpg.nextLeaf)
      let next ← s.fetchNode rpg.nextLeaf
      let s := s.setNode rpg.nextLeaf (next.setPrevLeaf left)
      some (if right = s.lastLeaf then { s with lastLeaf := left } else s)
    else some s)
  let par ← s.pages parent
  some (s.setNode parent (par.erasePair index))

/-- Restore the size of `node` after a removal; tells whether the page of `node` went. -/
def coalesceOrRedistribute :
    Nat → IxIndexHandle K → Int → Option (IxIndexHandle K × Bool)
  | 0, _, _ => none
  | fuel + 1, s, node => do
      let pg ← s.pages node
      if pg.parent = ixNoPage then s.adjustRoot node
      else if pg.getSize ≥ s.getMinSize then some (s, false)
      else
        let parent ← s.fetchNode pg.parent
        let idx ← parent.findChild node
        let siblingNo := parent.valueAt (if idx = 0 then 1 else idx - 1)
        let sibling ← s.fetchNode siblingNo
        if pg.getSize + sibling.getSize ≥ 2 * s.getMinSize then
          let s ← s.redistribute siblingNo node pg.parent idx
          some (s, false)
        else
          let s ← s.coalesce siblingNo node pg.parent idx
          let (s, _) ← coalesceOrRedistribute fuel s pg.parent
          some (s, decide (idx ≠ 0))

variable [LinearOrder K]

/-- Walk from page `p` down to a leaf, along `key` or along the first children. -/
def findLeafPage (findFirst : Bool) : Nat → IxIndexHandle K → K → Int → Option Int
  | 0, _, _, _ => none
  | fuel + 1, s, key, p => do
      let node ← s.fetchNode p
      let childNo := if findFirst then node.valueAt 0 else node.internalLookup key
      if node.isLeaf then some p else findLeafPage findFirst fuel s key childNo

/-- Rounds that suffice for every walk up or down the tree. -/
def rounds (s : IxIndexHandle K) : Nat := s.numPages.toNat

def getValue (s : IxIndexHandle K) (key : K) : Option (Option Rid) := do
  let leafNo ← findLeafPage false s.rounds s key s.rootPage
  let leaf ← s.pages leafNo
  some (leaf.leafLookup key)

/-- May `key` go to the leaf `c`, the last one, without a search? -/
def fastLeaf (c : IxPage K) (key : K) : Bool :=
  c.isLeaf && decide (c.getSize > 0) && decide (c.getKey 0 ≤ key)

/-- The leaf an insert goes to, and whether it is used through the kept pin. -/
def findInsertLeaf (s : IxIndexHandle K) (key : K) : Option (Int × Bool) := do
  let searched := do
    let leafNo ← findLeafPage false s.rounds s key s.rootPage
    some (leafNo, false)
  if s.cachedLeafNo ≠ ixNoPage ∧ s.cachedLeafNo = s.lastLeaf then
    match if s.pinnedLeafNo = s.cachedLeafNo then s.pinnedLeafPage else none with
    | some pinned =>
        let c ← s.pages pinned
        if fastLeaf c key then some (pinned, true) else searched
    | none =>
        let c ← s.fetchNode s.cachedLeafNo
        if fastLeaf c key then some (s.cachedLeafNo, false) else searched
  else searched

def insertEntry (s : IxIndexHandle K) (key : K) (value : Rid) :
    Option (IxIndexHandle K × Int) := do
  let (leafNo, ownedByCache) ← s.findInsertLeaf key
  let leaf ← s.pages leafNo
  let newLeaf := leaf.insert key value
  let s := s.setNode leafNo newLeaf
  if newLeaf.getSize = leaf.getSize then some (s, leafNo)
  else
    let s ← (if newLeaf.getKey 0 = key then maintainParent s.rounds s leafNo else some s)
    if newLeaf.getSize ≥ s.getMaxSize then
      let s := if ownedByCache then { s with pinnedLeafNo := ixNoPage, pinnedLeafPage := none }
        else s
      let (s, newNo) ← s.split leafNo
      let newPg ← s.pages newNo
      let s ← insertIntoParent s.rounds s leafNo (newPg.getKey 0) newNo
      some ({ s with cachedLeafNo := s.lastLeaf }, leafNo)
    else
      let s := { s with cachedLeafNo := leafNo }
      let s := if ownedByCache then s
        else { s.releasePinnedLeaf with pinnedLeafNo := leafNo, pinnedLeafPage := some leafNo }
      some (s, leafNo)

def deleteEntry (s : IxIndexHandle K) (key : K) : Option (IxIndexHandle K × Bool) := do
  let s := { s with cachedLeafNo := ixNoPage }
  let s := s.releasePinnedLeaf
  let leafNo ← findLeafPage false s.rounds s key s.rootPage
  let leaf ← s.pages leafNo
  let newLeaf := leaf.remove key
  let s := s.setNode leafNo newLeaf
  if newLeaf.getSize = leaf.getSize then some (s, false)
  else
    let s ← (if newLeaf.getSize > 0 then maintainParent s.rounds s leafNo else some s)
    let (s, _) ← coalesceOrRedistribute s.rounds s leafNo
    some (s, true)

end IxIndexHandle

/-- The index `IxManager::create_index` writes and `open_index` opens: the leaf header
(page 1) and an empty root leaf (page 2), linked to each other. -/
def createIndex {K : Type} (btreeOrder : Nat) : IxIndexHandle K where
  numPages := ixInitNumPages
  rootPage := ixInitRootPage
  btreeOrder := btreeOrder
  firstLeaf := ixInitRootPage
  lastLeaf := ixInitRootPage
  nextPageNo := ixInitNumPages
  cachedLeafNo := ixNoPage
  pinnedLeafNo := ixNoPage
  pinnedLeafPage := none
  pages := fun p =>
    if p = ixLeafHeaderPage then some ⟨ixNoPage, true, ixInitRootPage, ixInitRootPage, []⟩
    else if p = ixInitRootPage then some ⟨ixNoPage, true, ixLeafHeaderPage, ixLeafHeaderPage, []⟩
    else none

end Rmdb.Index
