import FreeToken.KvCache.RadixTree

/-!
# The radix prefix cache

`kvcache/radix_cache.py`'s `RadixPrefixCache`: a radix tree of KV pages with locks
and an eviction of unlocked leaves. Handles name a node; the cache returns page
indices and its caller frees them.

An assertion that fails is `none`. Clocks are parameters (`tic` of a walk, `now` of
a new node), and so is which of several oldest leaves the heap of `evict` pops
first (`ties`, one entry a pop).
-/

namespace FreeToken.KvCache

open FreeToken.Lib RadixTree

structure RadixCacheHandle where
  cachedLen : Nat
  node : NodeId
  deriving DecidableEq, Repr

structure RadixPrefixCache extends RadixTree where
  evictableSize : Int
  protectedSize : Int

/-- What the loop of `evict` carries. -/
structure PrefixEvicting where
  cache : RadixPrefixCache
  evictedIndices : List KvIndex
  evictedSize : Nat

/-- `get_matched_indices`; `torch.cat` of no tensor raises. -/
def RadixTree.getMatchedIndices (t : RadixTree) (handle : RadixCacheHandle) :
    Option (List KvIndex) :=
  if t.rootPath handle.node = [] then none else some (t.collectKv handle.node)

namespace RadixPrefixCache

def empty (pageSize : Nat) : RadixPrefixCache where
  toRadixTree := .empty pageSize
  evictableSize := 0
  protectedSize := 0

variable (c : RadixPrefixCache)

/-- One round of `lock_handle(handle, unlock=False)`. -/
def lockNode (node : NodeId) : RadixPrefixCache :=
  let len : Int := if (c.node node).refCount = 0 then (c.node node).length else 0
  { c with
    toRadixTree := c.modify node .addRef
    evictableSize := c.evictableSize - len
    protectedSize := c.protectedSize + len }

/-- One round of `lock_handle(handle, unlock=True)`, with its
`assert node.ref_count >= 0`. -/
def unlockNode (node : NodeId) : Option RadixPrefixCache :=
  if (c.node node).refCount = 0 then none
  else
    let len : Int := if (c.node node).refCount = 1 then (c.node node).length else 0
    some { c with
      toRadixTree := c.modify node .dropRef
      evictableSize := c.evictableSize + len
      protectedSize := c.protectedSize - len }

def lockHandle (handle : RadixCacheHandle) (unlock : Bool) : Option RadixPrefixCache :=
  if unlock then (c.rootPath handle.node).foldlM unlockNode c
  else some ((c.rootPath handle.node).foldl lockNode c)

def matchPrefix (inputIds : List Token) (tic : Time) : RadixPrefixCache × RadixCacheHandle :=
  let w := c.walk inputIds tic
  ({ c with toRadixTree := w.1 }, ⟨w.2.2, w.2.1⟩)

/-- `insert_prefix`; the result is `(cached_len, handle)`. -/
def insertPrefix (inputIds : List Token) (indices : List KvIndex) (tic now : Time) :
    Option (RadixPrefixCache × Nat × RadixCacheHandle) :=
  let insertLen := alignDown inputIds.length c.pageSize
  let w := c.walk (inputIds.take insertLen) tic
  let prefixLen := w.2.2
  if prefixLen = insertLen then
    some ({ c with toRadixTree := w.1 }, prefixLen, ⟨insertLen, w.2.1⟩)
  else
    let key := (inputIds.take insertLen).drop prefixLen
    let value := (indices.take insertLen).drop prefixLen
    if value.length ≠ key.length then none
    else
      let leaf := w.1.addLeaf w.2.1 key value now
      some ({ c with toRadixTree := leaf.1, evictableSize := c.evictableSize + key.length },
        prefixLen, ⟨insertLen, leaf.2⟩)

-- ---------------------------------------------------------------------------
-- Eviction
-- ---------------------------------------------------------------------------

/-- `_collect_leave_nodes_for_evict`. -/
def collectLeaveNodesForEvict : List NodeId :=
  (List.range c.next).filter fun n =>
    (n == root || (c.node n).linked) && c.isLeaf n && (c.node n).refCount == 0

/-- An unlocked leaf leaves the tree and its pages are returned. -/
def takeLeaf (e : PrefixEvicting) (node : NodeId) : PrefixEvicting where
  cache :=
    { e.cache with
      toRadixTree := e.cache.unlink node
      evictableSize := e.cache.evictableSize - (e.cache.node node).length }
  evictedIndices := e.evictedIndices ++ (e.cache.node node).value
  evictedSize := e.evictedSize + (e.cache.node node).length

/-- The loop of `evict` with its two assertions. A round takes a node from the tree,
so the number of nodes is fuel enough. -/
def evictLoop (size : Nat) (ties : Nat → Nat) :
    Nat → PrefixEvicting → List NodeId → Option PrefixEvicting
  | 0, e, _ => if size ≤ e.evictedSize then some e else none
  | fuel + 1, e, leaveNodes =>
    if size ≤ e.evictedSize then some e
    else
      (e.cache.popOldest (ties fuel) leaveNodes).bind fun node =>
        if (e.cache.node node).refCount ≠ 0 ∨ e.cache.isLeaf node = false ∨ node = root then none
        else
          (e.cache.node node).parent.bind fun parent =>
            let e := takeLeaf e node
            let leaveNodes := leaveNodes.erase node
            evictLoop size ties fuel e
              (if e.cache.isLeaf parent = true ∧ (e.cache.node parent).refCount = 0
                then parent :: leaveNodes else leaveNodes)

def evict (size : Nat) (ties : Nat → Nat) : Option (RadixPrefixCache × List KvIndex) :=
  if size = 0 then some (c, [])
  else if c.evictableSize < size then none
  else
    (evictLoop size ties c.next ⟨c, [], 0⟩ c.collectLeaveNodesForEvict).map fun e =>
      (e.cache, e.evictedIndices)

end RadixPrefixCache

end FreeToken.KvCache
