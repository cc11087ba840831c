import FreeToken.KvCache.RadixTree

/-!
# The sliding-window radix cache

`kvcache/swa_radix_cache.py`: a radix tree of full-pool pages in which a node may be
a tombstone: its tokens keep their full pages, but their window pages are freed.
A match ends at a node from which a whole window back is live. The cache returns
page indices; its caller frees them.

An assertion that fails is `none`. Which of several oldest nodes a heap pops first
is a parameter (`ties`, one entry a pop). The count of revives is left out.
-/

namespace FreeToken.KvCache

open FreeToken.Lib RadixTree

/-- `_EVENT_STRIDE`: the room between two events of the clock, for the depths of a path. -/
def eventStride : Nat := 2 ^ 24

structure SWAMatch where
  kvIndices : List KvIndex
  cachedLen : Nat
  node : NodeId
  deriving DecidableEq, Repr

structure SWAEvictResult where
  kvIndices : List KvIndex
  swaIndices : List KvIndex
  deriving DecidableEq, Repr

structure SWARadixCache extends RadixTree where
  slidingWindowSize : Nat
  fullEvictable : Int
  fullProtected : Int
  swaEvictable : Int
  swaProtected : Int
  clk : Time
  uuid : Nat

/-- What the loop of `match_prefix` carries; `matchSinceTomb` is `none` for the
infinity it starts at. -/
structure Matching where
  node : NodeId
  value : List (List KvIndex)
  matchSinceTomb : Option Nat
  bestValueLen : Nat
  bestNode : NodeId

/-- What the loop of `insert` carries. -/
structure Inserting where
  cache : SWARadixCache
  node : NodeId
  total : Nat
  freed : List KvIndex

/-- What an eviction has done so far. -/
structure SWAEvicting where
  cache : SWARadixCache
  kvIndices : List KvIndex
  swaIndices : List KvIndex
  freed : Nat

namespace Node

def setTombstone (b : Bool) (x : Node) : Node := { x with swaTombstone := b }

/-- The node takes the request's live pages and is no tombstone any more. -/
def adopt (kv : List KvIndex) (tic : Time) (x : Node) : Node :=
  { x with value := kv, swaTombstone := false, timestamp := tic }

def addSwaRef (x : Node) : Node := { x with swaRefCount := x.swaRefCount + 1 }

def dropSwaRef (x : Node) : Node := { x with swaRefCount := x.swaRefCount - 1 }

def setSwaUuid (u : Nat) (x : Node) : Node := { x with swaUuid := some u }

end Node

namespace Matching

def init : Matching := ⟨root, [], none, 0, root⟩

/-- `match_since_tomb >= self.sliding_window_size`. -/
def covers (m : Matching) (window : Nat) : Bool := m.matchSinceTomb.all (window ≤ ·)

def commit (m : Matching) (window : Nat) : Matching :=
  if m.covers window then { m with bestValueLen := m.value.length, bestNode := m.node } else m

def enter (m : Matching) (t : RadixTree) (child : NodeId) : Matching :=
  let x := t.node child
  { m with
    node := child
    value := m.value ++ [x.value]
    matchSinceTomb :=
      if x.swaTombstone then m.matchSinceTomb else m.matchSinceTomb.map (· + x.length) }

end Matching

namespace RadixTree

/-- The loop of `match_prefix`; `rest` is `input_ids[prefix_pos:]`. -/
def matchLoop (window : Nat) : Nat → RadixTree → Matching → List Token → RadixTree × Matching
  | 0, t, m, _ => (t, m)
  | fuel + 1, t, m, rest =>
    if rest = [] then (t, m)
    else
      match t.childOf m.node rest with
      | none => (t, m)
      | some child =>
        let m :=
          if (t.node child).swaTombstone then { m.commit window with matchSinceTomb := some 0 }
          else m
        let matchLen := alignDown (commonPrefixLen (t.node child).key rest) t.pageSize
        if matchLen = 0 then (t, m)
        else if matchLen < (t.node child).length then
          let split := t.splitAt child matchLen
          (split.1, m.enter split.1 split.2)
        else matchLoop window fuel t (m.enter t child) (rest.drop matchLen)

/-- `_stamp_path`'s loop: later times further from the root. -/
def stampPath (t : RadixTree) (node : NodeId) (base : Time) : RadixTree :=
  (t.rootPath node).zipIdx.foldl (fun t cur => t.stamp cur.1 (base - cur.2)) t

end RadixTree

namespace SWARadixCache

def empty (pageSize slidingWindowSize : Nat) : SWARadixCache where
  toRadixTree := .empty pageSize
  slidingWindowSize := slidingWindowSize
  fullEvictable := 0
  fullProtected := 0
  swaEvictable := 0
  swaProtected := 0
  clk := 0
  uuid := 0

variable (c : SWARadixCache)

-- ---------------------------------------------------------------------------
-- Match and insert
-- ---------------------------------------------------------------------------

def matchPrefix (inputIds : List Token) : SWARadixCache × SWAMatch :=
  let w := c.toRadixTree.matchLoop c.slidingWindowSize inputIds.length .init inputIds
  let m := w.2.commit c.slidingWindowSize
  let clk := c.clk + 1
  let kv := (m.value.take m.bestValueLen).flatten
  ({ c with toRadixTree := w.1.stampPath m.bestNode (clk * eventStride), clk := clk },
    ⟨kv, kv.length, m.bestNode⟩)

/-- `_add_child`, with the assertion of `set_key_value`. -/
def addChild (parent : NodeId) (ids : List Token) (kv : List KvIndex) (tombstone : Bool) :
    Option (SWARadixCache × NodeId) :=
  if kv.length ≠ ids.length then none
  else
    let leaf := c.toRadixTree.addLeaf parent ids kv ((c.clk + 1) * eventStride)
    let len : Int := ids.length
    some ({ c with
      toRadixTree := leaf.1.modify leaf.2 (.setTombstone tombstone)
      clk := c.clk + 1
      fullEvictable := c.fullEvictable + len
      swaEvictable := if tombstone then c.swaEvictable else c.swaEvictable + len }, leaf.2)

def revive (child : NodeId) (kv : List KvIndex) : Option SWARadixCache :=
  if kv.length ≠ (c.node child).length then none
  else
    some { c with
      toRadixTree := c.modify child (.adopt kv ((c.clk + 1) * eventStride))
      clk := c.clk + 1
      swaEvictable := c.swaEvictable + (c.node child).length }

/-- What `insert` does with a node it passes: `segKv` are the request's pages for the
node's tokens `[total, total + matchLen)`. The list is what it frees. -/
def reconcile (child : NodeId) (segKv : List KvIndex)
    (total matchLen swaEvictedSeqlen updateKvAfterLen : Nat) :
    Option (SWARadixCache × List KvIndex) :=
  if updateKvAfterLen < total + matchLen then
    if (c.node child).swaTombstone then
      if (c.node child).swaRefCount ≠ 0 then none
      -- a reader with a full lock still gathers the node's pages
      else if 0 < (c.node child).refCount then some (c, segKv)
      else if swaEvictedSeqlen ≤ total then
        (c.revive child segKv).map fun d => (d, (c.node child).value)
      else if swaEvictedSeqlen < total + matchLen then
        let start := swaEvictedSeqlen - total
        let s : SWARadixCache := { c with toRadixTree := (c.splitAt child start).1 }
        (s.revive child (segKv.drop start)).map fun d =>
          (d, (s.node child).value ++ segKv.take start)
      else some (c, segKv)
    else some (c, segKv)
  else some (c, [])

def insertLoop (inputIds : List Token) (kvIndices : List KvIndex)
    (swaEvictedSeqlen updateKvAfterLen : Nat) : Nat → Inserting → Option Inserting
  | 0, e => some e
  | fuel + 1, e =>
    if inputIds.length ≤ e.total then some e
    else
      match e.cache.childOf e.node (inputIds.drop e.total) with
      | none => some e
      | some child =>
        let matchLen := alignDown
          (commonPrefixLen (e.cache.node child).key (inputIds.drop e.total)) e.cache.pageSize
        let segKv := (kvIndices.drop e.total).take matchLen
        if matchLen = 0 then some e
        else if matchLen < (e.cache.node child).length then
          let split := e.cache.splitAt child matchLen
          let s : SWARadixCache := { e.cache with toRadixTree := split.1 }
          (s.reconcile split.2 segKv e.total matchLen swaEvictedSeqlen updateKvAfterLen).map
            fun r => ⟨r.1, split.2, e.total + matchLen, e.freed ++ r.2⟩
        else
          (e.cache.reconcile child segKv e.total matchLen swaEvictedSeqlen updateKvAfterLen).bind
            fun r => insertLoop inputIds kvIndices swaEvictedSeqlen updateKvAfterLen fuel
              ⟨r.1, child, e.total + matchLen, e.freed ++ r.2⟩

/-- The new suffix: the part before `swa_evicted_seqlen` as a tombstone, then a live leaf. -/
def addSuffix (node : NodeId) (ids : List Token) (kv : List KvIndex) (boundary : Nat) :
    Option SWARadixCache :=
  if 0 < boundary then
    (c.addChild node (ids.take boundary) (kv.take boundary) true).bind fun head =>
      if ids.drop boundary = [] then some head.1
      else (head.1.addChild head.2 (ids.drop boundary) (kv.drop boundary) false).map Prod.fst
  else (c.addChild node ids kv false).map Prod.fst

/-- `insert`; the result is `(matched_prefix_len, freed_full_indices)`. -/
def insert (inputIds : List Token) (kvIndices : List KvIndex)
    (swaEvictedSeqlen updateKvAfterLen : Nat) : Option (SWARadixCache × Nat × List KvIndex) :=
  let insertLen := alignDown inputIds.length c.pageSize
  let inputIds := inputIds.take insertLen
  let kvIndices := kvIndices.take insertLen
  (insertLoop inputIds kvIndices swaEvictedSeqlen updateKvAfterLen insertLen
    ⟨c, root, 0, []⟩).bind fun e =>
      if e.total < insertLen then
        let suffixIds := inputIds.drop e.total
        let boundary := min (min swaEvictedSeqlen insertLen - e.total)
          (suffixIds.length - c.pageSize)
        (e.cache.addSuffix e.node suffixIds (kvIndices.drop e.total) boundary).map fun d =>
          (d, e.total, e.freed)
      else some (e.cache, e.total, e.freed)

-- ---------------------------------------------------------------------------
-- Locks
-- ---------------------------------------------------------------------------

def incFullRef (cur : NodeId) : SWARadixCache :=
  let len : Int := if (c.node cur).refCount = 0 then (c.node cur).length else 0
  { c with
    toRadixTree := c.modify cur .addRef
    fullEvictable := c.fullEvictable - len
    fullProtected := c.fullProtected + len }

def incSwaRef (cur : NodeId) : SWARadixCache :=
  let len : Int := if (c.node cur).swaRefCount = 0 then (c.node cur).length else 0
  { c with
    toRadixTree := c.modify cur .addSwaRef
    swaEvictable := c.swaEvictable - len
    swaProtected := c.swaProtected + len }

/-- The window's boundary gets an id unless it has one. -/
def markBoundary (cur : NodeId) : SWARadixCache × Option Nat :=
  match (c.node cur).swaUuid with
  | some u => (c, some u)
  | none =>
    ({ c with
      toRadixTree := c.modify cur (.setSwaUuid (c.uuid + 1))
      uuid := c.uuid + 1 }, some (c.uuid + 1))

/-- One round of `inc_lock`'s loop; the state is the cache, `swa_uuid_for_lock` and
`swa_locked`. -/
def incLockAt (s : SWARadixCache × Option Nat × Nat) (cur : NodeId) :
    SWARadixCache × Option Nat × Nat :=
  let c := s.1.incFullRef cur
  if s.2.2 < c.slidingWindowSize ∧ (c.node cur).swaTombstone = false then
    let locked := s.2.2 + (c.node cur).length
    let c := c.incSwaRef cur
    if c.slidingWindowSize ≤ locked then
      let b := c.markBoundary cur
      (b.1, b.2, locked)
    else (c, s.2.1, locked)
  else (c, s.2.1, s.2.2)

def incLock (node : NodeId) : SWARadixCache × Option Nat :=
  let s := (c.rootPath node).foldl incLockAt (c, none, 0)
  (s.1, s.2.1)

def decFullRef (cur : NodeId) : Option SWARadixCache :=
  if (c.node cur).refCount = 0 then none
  else
    let len : Int := if (c.node cur).refCount = 1 then (c.node cur).length else 0
    some { c with
      toRadixTree := c.modify cur .dropRef
      fullEvictable := c.fullEvictable + len
      fullProtected := c.fullProtected - len }

def decSwaRef (cur : NodeId) : SWARadixCache :=
  let len : Int := if (c.node cur).swaRefCount = 1 then (c.node cur).length else 0
  { c with
    toRadixTree := c.modify cur .dropSwaRef
    swaEvictable := c.swaEvictable + len
    swaProtected := c.swaProtected - len }

/-- One round of `dec_lock`'s loop; the flag is `dec_swa`. -/
def decLockAt (swaUuidForLock : Option Nat) (s : SWARadixCache × Bool) (cur : NodeId) :
    Option (SWARadixCache × Bool) :=
  (s.1.decFullRef cur).map fun c =>
    if s.2 && !(c.node cur).swaTombstone && decide (0 < (c.node cur).swaRefCount) then
      (c.decSwaRef cur,
        !(swaUuidForLock.isSome && decide ((c.node cur).swaUuid = swaUuidForLock)))
    else (c, s.2)

def decLock (node : NodeId) (swaUuidForLock : Option Nat) (skipSwa : Bool) :
    Option SWARadixCache :=
  ((c.rootPath node).foldlM (decLockAt swaUuidForLock) (c, !skipSwa)).map Prod.fst

-- ---------------------------------------------------------------------------
-- Eviction
-- ---------------------------------------------------------------------------

/-- A node leaves the tree and the full gauge. -/
def dropNode (node : NodeId) : SWARadixCache :=
  { c with
    toRadixTree := c.unlink node
    fullEvictable := c.fullEvictable - (c.node node).length }

/-- The node's window pages are freed: it is a tombstone now. -/
def entomb (node : NodeId) : SWARadixCache :=
  { c with
    toRadixTree := c.modify node (.setTombstone true)
    swaEvictable := c.swaEvictable - (c.node node).length }

/-- `_cascade_swa_tombstone_leaves` along the path from the unlinked leaf's parent to
the root; the result also has the ancestor that stays and the tokens freed. -/
def cascadeSwaTombstoneLeaves :
    SWARadixCache → List KvIndex → List NodeId → Nat →
      SWARadixCache × List KvIndex × NodeId × Nat
  | c, kv, [], freed => (c, kv, root, freed)
  | c, kv, parent :: path, freed =>
    if (c.node parent).swaTombstone = true ∧ c.isLeaf parent = true ∧
        (c.node parent).refCount = 0 then
      cascadeSwaTombstoneLeaves (c.dropNode parent) (kv ++ (c.node parent).value) path
        (freed + (c.node parent).length)
    else (c, kv, parent, freed)

/-- `_leaves`. -/
def leaves : List NodeId :=
  (List.range c.next).filter fun n => (c.node n).linked && c.isLeaf n

/-- `_swa_nodes`. -/
def swaNodes : List NodeId :=
  (List.range c.next).filter fun n => (c.node n).linked && !(c.node n).swaTombstone

/-- The loop of `evict_full`. A round shortens the heap or the tree, so three times
the number of nodes is fuel enough. -/
def evictFullLoop (numTokens : Nat) (ties : Nat → Nat) :
    Nat → SWAEvicting → List NodeId → SWAEvicting
  | 0, e, _ => e
  | fuel + 1, e, heap =>
    if numTokens ≤ e.freed then e
    else
      match e.cache.popOldest (ties fuel) heap with
      | none => e
      | some node =>
        let heap := heap.erase node
        let x := e.cache.node node
        if x.refCount ≠ 0 ∨ e.cache.isLeaf node = false ∨ node = root then
          evictFullLoop numTokens ties fuel e heap
        else
          let path := (e.cache.rootPath node).tail
          let dropped := e.cache.dropNode node
          let dropped :=
            if x.swaTombstone then dropped
            else { dropped with swaEvictable := dropped.swaEvictable - x.length }
          let r := cascadeSwaTombstoneLeaves dropped (e.kvIndices ++ x.value) path 0
          let swa := if x.swaTombstone then e.swaIndices else e.swaIndices ++ x.value
          let parent := r.2.2.1
          let heap :=
            if r.1.isLeaf parent = true ∧ (r.1.node parent).refCount = 0 ∧ parent ≠ root
            then parent :: heap else heap
          evictFullLoop numTokens ties fuel
            ⟨r.1, r.2.1, swa, e.freed + x.length + r.2.2.2⟩ heap

def evictFull (numTokens : Nat) (ties : Nat → Nat) : SWARadixCache × SWAEvictResult :=
  let e := evictFullLoop numTokens ties (3 * c.next) ⟨c, [], [], 0⟩
    (c.leaves.filter fun n => (c.node n).refCount = 0)
  (e.cache, ⟨e.kvIndices, e.swaIndices⟩)

/-- One node `evict_swa` frees: an unlocked leaf leaves the tree, any other node
becomes a tombstone in place. -/
def evictSwaNode (e : SWAEvicting) (node : NodeId) : SWAEvicting :=
  let x := e.cache.node node
  if e.cache.isLeaf node = true ∧ x.refCount = 0 then
    let path := (e.cache.rootPath node).tail
    let r := cascadeSwaTombstoneLeaves ((e.cache.entomb node).dropNode node)
      (e.kvIndices ++ x.value) path 0
    ⟨r.1, r.2.1, e.swaIndices ++ x.value, e.freed + x.length⟩
  else ⟨e.cache.entomb node, e.kvIndices, e.swaIndices ++ x.value, e.freed + x.length⟩

/-- The loop of `evict_swa`; every round shortens the heap. -/
def evictSwaLoop (numTokens : Nat) (ties : Nat → Nat) :
    Nat → SWAEvicting → List NodeId → SWAEvicting
  | 0, e, _ => e
  | fuel + 1, e, heap =>
    if numTokens ≤ e.freed then e
    else
      match e.cache.popOldest (ties fuel) heap with
      | none => e
      | some node =>
        let heap := heap.erase node
        let x := e.cache.node node
        if x.swaTombstone = true ∨ x.swaRefCount ≠ 0 ∨ node = root then
          evictSwaLoop numTokens ties fuel e heap
        else evictSwaLoop numTokens ties fuel (evictSwaNode e node) heap

def evictSwa (numTokens : Nat) (ties : Nat → Nat) : SWARadixCache × SWAEvictResult :=
  let cands := c.swaNodes.filter fun n => (c.node n).swaRefCount = 0
  let e := evictSwaLoop numTokens ties cands.length ⟨c, [], [], 0⟩ cands
  (e.cache, ⟨e.kvIndices, e.swaIndices⟩)

/-- The loop of `trim_head_swa`. -/
def trimLoop (inputIds : List Token) (keepFrom : Nat) :
    Nat → SWARadixCache → NodeId → Nat → List KvIndex → SWARadixCache × List KvIndex
  | 0, c, _, _, freed => (c, freed)
  | fuel + 1, c, node, pos, freed =>
    if keepFrom ≤ pos then (c, freed)
    else
      match c.childOf node (inputIds.drop pos) with
      | none => (c, freed)
      | some child =>
        let x := c.node child
        if keepFrom < pos + x.length then (c, freed)
        else if x.swaTombstone = false ∧ x.swaRefCount = 0 ∧ c.isLeaf child = false then
          trimLoop inputIds keepFrom fuel (c.entomb child) child (pos + x.length)
            (freed ++ x.value)
        else trimLoop inputIds keepFrom fuel c child (pos + x.length) freed

def trimHeadSwa (inputIds : List Token) (keepFrom : Nat) : SWARadixCache × List KvIndex :=
  if keepFrom = 0 then (c, [])
  else trimLoop inputIds keepFrom keepFrom (c.matchPrefix (inputIds.take keepFrom)).1 root 0 []

end SWARadixCache

end FreeToken.KvCache
