import FreeToken.KvCache.RadixTree
import Mathlib.Data.List.Sort

/-!
# The hybrid radix cache

`kvcache/hybrid_radix_cache.py`: a radix tree of KV pages whose nodes may own a
snapshot of the recurrent state (`mambaValue`), with locks and an eviction for
each of the two. The cache returns slots and page indices; its caller frees them.

An assertion that fails is `none`. Clocks are parameters (`tic` of a walk, `now`
of a new node). `evict_full` pops a heap ordered by timestamp alone, so which of
several oldest leaves comes first is a parameter too (`ties`, one entry a pop).
The trace file is left out.
-/

namespace FreeToken.KvCache

open FreeToken.Lib RadixTree

structure HybridMatch where
  kvIndices : List KvIndex
  cachedLen : Nat
  mambaValue : Option Slot
  node : NodeId
  sumlessLen : Nat
  deriving DecidableEq, Repr

structure HybridRadixCache extends RadixTree where
  fullEvictable : Int
  fullProtected : Int
  mambaEvictable : Int
  mambaProtected : Int

/-- What an eviction has done so far: its cache and its `EvictResult`. -/
structure Evicting where
  cache : HybridRadixCache
  kvIndices : List KvIndex
  mambaSlots : List Slot
  freed : Nat

namespace Node

def addMambaRef (x : Node) : Node := { x with mambaRefCount := x.mambaRefCount + 1 }

def dropMambaRef (x : Node) : Node := { x with mambaRefCount := x.mambaRefCount - 1 }

end Node

namespace HybridRadixCache

def empty (pageSize : Nat) : HybridRadixCache where
  toRadixTree := .empty pageSize
  fullEvictable := 0
  fullProtected := 0
  mambaEvictable := 0
  mambaProtected := 0

variable (c : HybridRadixCache)

def walk (inputIds : List Token) (tic : Time) : HybridRadixCache × NodeId × Nat :=
  let w := c.toRadixTree.walk inputIds tic
  ({ c with toRadixTree := w.1 }, w.2.1, w.2.2)

/-- The `while not cur.is_root()` loop of `match_prefix`; `sumless` is the depth
of the deepest live snapshot once one was seen. -/
def matchUp (pooled : Bool) : List NodeId → Nat → Option Nat → HybridMatch
  | [], _, sumless => ⟨[], 0, none, root, sumless.getD 0⟩
  | cur :: path, endLen, sumless =>
    match (c.node cur).mambaValue with
    | some slot =>
      let sumless := sumless.getD endLen
      if !pooled || (c.node cur).pooledSums.isSome then
        ⟨c.collectKv cur, endLen, some slot, cur, sumless⟩
      else
        matchUp pooled path (endLen - (c.node cur).length) (some sumless)
    | none => matchUp pooled path (endLen - (c.node cur).length) sumless

theorem matchUp_of_live {cur : NodeId} {slot : Slot} (path : List NodeId)
    (h : (c.node cur).mambaValue = some slot) (endLen : Nat) (sumless : Option Nat) :
    c.matchUp false (cur :: path) endLen sumless =
      ⟨c.collectKv cur, endLen, some slot, cur, sumless.getD endLen⟩ := by
  rw [matchUp, h]
  rfl

def matchPrefix (inputIds : List Token) (pooled : Bool) (tic : Time) :
    HybridRadixCache × HybridMatch :=
  let w := c.walk inputIds tic
  (w.1, w.1.matchUp pooled (w.1.rootPath w.2.1) (w.1.pathLen w.2.1) none)

/-- The first half of `insert`: walk to the end of the (whole-page) input and put
what is missing in a new leaf. The result is the boundary node and how much of
the input was already there. -/
def extendPath (inputIds : List Token) (kvIndices : List KvIndex) (tic now : Time) :
    Option (HybridRadixCache × NodeId × Nat) :=
  let w := c.walk inputIds tic
  let key := inputIds.drop w.2.2
  let value := kvIndices.drop w.2.2
  if w.2.2 = inputIds.length then some w
  else if value.length ≠ key.length then none
  else
    let leaf := w.1.addLeaf w.2.1 key value now
    some ({ w.1 with toRadixTree := leaf.1, fullEvictable := w.1.fullEvictable + key.length },
      leaf.2, w.2.2)

/-- The second half of `insert`: the boundary node takes the snapshot, unless it
is the root or has one already. The flag is `mamba_exist`. -/
def donate (node : NodeId) (mambaValue : Slot) (pooledSums : Option Nat) (kind : SnapshotKind) :
    HybridRadixCache × Bool :=
  if node = root then (c, true)
  else if (c.node node).mambaValue.isSome then
    ({ c with
      toRadixTree := c.modify node fun x =>
        { x with
          pooledSums := x.pooledSums.or pooledSums
          snapshotKind := if kind = .chunk then x.snapshotKind else kind } }, true)
  else
    ({ c with
      toRadixTree := c.modify node fun x =>
        { x with
          mambaValue := some mambaValue
          snapshotKind := kind
          pooledSums := pooledSums.or x.pooledSums }
      mambaEvictable :=
        if (c.node node).mambaRefCount = 0 then c.mambaEvictable + 1 else c.mambaEvictable },
      false)

/-- `insert`; the result is `(matched_prefix_len, mamba_exist)`. -/
def insert (inputIds : List Token) (kvIndices : List KvIndex) (mambaValue : Slot)
    (pooledSums : Option Nat) (kind : SnapshotKind) (tic now : Time) :
    Option (HybridRadixCache × Nat × Bool) :=
  let insertLen := alignDown inputIds.length c.pageSize
  if pooledSums.isSome && insertLen != inputIds.length then none
  else
    (c.extendPath (inputIds.take insertLen) (kvIndices.take insertLen) tic now).map fun g =>
      let d := g.1.donate g.2.1 mambaValue pooledSums kind
      (d.1, g.2.2, d.2)

-- ---------------------------------------------------------------------------
-- Locks
-- ---------------------------------------------------------------------------

def incRef (cur : NodeId) : HybridRadixCache :=
  let first := (c.node cur).refCount = 0
  let len : Int := if first then (c.node cur).length else 0
  { c with
    toRadixTree := c.modify cur .addRef
    fullEvictable := c.fullEvictable - len
    fullProtected := c.fullProtected + len }

def incMambaRef (node : NodeId) : HybridRadixCache :=
  let first : Int := if (c.node node).mambaRefCount = 0 then 1 else 0
  { c with
    toRadixTree := c.modify node .addMambaRef
    mambaEvictable := c.mambaEvictable - first
    mambaProtected := c.mambaProtected + first }

def incLock (node : NodeId) : HybridRadixCache :=
  let c := if (c.node node).mambaValue.isSome then c.incMambaRef node else c
  (c.rootPath node).foldl incRef c

/-- One round of `dec_lock`'s loop, with its `assert cur.ref_count >= 0`. -/
def decRef (cur : NodeId) : Option HybridRadixCache :=
  if (c.node cur).refCount = 0 then none
  else
    let len : Int := if (c.node cur).refCount = 1 then (c.node cur).length else 0
    some { c with
      toRadixTree := c.modify cur .dropRef
      fullEvictable := c.fullEvictable + len
      fullProtected := c.fullProtected - len }

def decMambaRef (node : NodeId) : HybridRadixCache :=
  let last : Int := if (c.node node).mambaRefCount = 1 then 1 else 0
  { c with
    toRadixTree := c.modify node .dropMambaRef
    mambaEvictable := c.mambaEvictable + last
    mambaProtected := c.mambaProtected - last }

/-- Does `dec_lock` give a snapshot reference back? -/
def givesBack (node : NodeId) : Bool :=
  (c.node node).mambaValue.isSome && decide (0 < (c.node node).mambaRefCount)

def decLock (node : NodeId) : Option HybridRadixCache :=
  let c := if c.givesBack node then c.decMambaRef node else c
  (c.rootPath node).foldlM decRef c

-- ---------------------------------------------------------------------------
-- Eviction
-- ---------------------------------------------------------------------------

/-- `_free_node_mamba`. -/
def freeNodeMamba (node : NodeId) (out : List Slot) : HybridRadixCache × List Slot :=
  match (c.node node).mambaValue with
  | none => (c, out)
  | some slot =>
    ({ c with
      toRadixTree := c.modify node fun x =>
        { x with snapshotKind := .chunk, mambaValue := none, pooledSums := none }
      mambaEvictable :=
        if (c.node node).mambaRefCount = 0 then c.mambaEvictable - 1 else c.mambaEvictable },
      out ++ [slot])

/-- A leaf leaves the tree: its pages go to `kv`, its snapshot to `mamba`. -/
def dropLeaf (e : Evicting) (node : NodeId) : Evicting :=
  let x := e.cache.node node
  let f := e.cache.freeNodeMamba node e.mambaSlots
  { cache :=
      { f.1 with toRadixTree := f.1.unlink node, fullEvictable := f.1.fullEvictable - x.length }
    kvIndices := e.kvIndices ++ x.value
    mambaSlots := f.2
    freed := e.freed }

/-- `_cascade_tombstone_leaves` along the path from the unlinked leaf's parent to
the root; the result also names the first ancestor that stays and the tokens freed. -/
def cascadeTombstoneLeaves : Evicting → List NodeId → Nat → Evicting × NodeId × Nat
  | e, [], freed => (e, root, freed)
  | e, parent :: path, freed =>
    if (e.cache.node parent).mambaValue = none ∧ e.cache.isLeaf parent = true ∧
        (e.cache.node parent).refCount = 0 then
      cascadeTombstoneLeaves (dropLeaf e parent) path (freed + (e.cache.node parent).length)
    else (e, parent, freed)

/-- `_leaves`. -/
def leaves : List NodeId :=
  (List.range c.next).filter fun n => (c.node n).linked && c.isLeaf n

/-- `heapq.heappop` of a heap of nodes ordered by timestamp: the `tie`-th of the
oldest ones. -/
def heapPop (tie : Nat) (heap : List NodeId) : Option NodeId :=
  let oldest := heap.filter fun n => heap.all fun m => (c.node n).timestamp ≤ (c.node m).timestamp
  oldest[tie % oldest.length]?

/-- The loop of `evict_full`. A round shortens the heap or the tree, so three
times the number of nodes is fuel enough. -/
def evictFullLoop (numTokens : Nat) (ties : Nat → Nat) : Nat → Evicting → List NodeId → Evicting
  | 0, e, _ => e
  | fuel + 1, e, heap =>
    if numTokens ≤ e.freed then e
    else
      match e.cache.heapPop (ties fuel) heap with
      | none => e
      | some node =>
        let heap := heap.erase node
        if (e.cache.node node).refCount ≠ 0 ∨ e.cache.isLeaf node = false ∨ node = root then
          evictFullLoop numTokens ties fuel e heap
        else
          let len := (e.cache.node node).length
          let path := (e.cache.rootPath node).tail
          let r := cascadeTombstoneLeaves (dropLeaf e node) path 0
          let e : Evicting := { r.1 with freed := e.freed + len + r.2.2 }
          let parent := r.2.1
          let heap :=
            if e.cache.isLeaf parent = true ∧ (e.cache.node parent).refCount = 0 ∧ parent ≠ root
            then parent :: heap else heap
          evictFullLoop numTokens ties fuel e heap

def evictFull (numTokens : Nat) (ties : Nat → Nat) : Evicting :=
  evictFullLoop numTokens ties (3 * c.next) ⟨c, [], [], 0⟩
    (c.leaves.filter fun n => (c.node n).refCount = 0)

/-- `_mamba_evict_rank`. -/
def mambaEvictRank (n : NodeId) : Nat :=
  if (c.node n).snapshotKind ≠ .chunk then 2 else if 0 < (c.node n).refCount then 1 else 0

/-- The order of `evict_mamba`'s tuples
`(rank, timestamp, -path_len, uuid)`. -/
def EvictsBefore (a b : NodeId) : Prop :=
  c.mambaEvictRank a < c.mambaEvictRank b ∨ c.mambaEvictRank a = c.mambaEvictRank b ∧
    ((c.node a).timestamp < (c.node b).timestamp ∨ (c.node a).timestamp = (c.node b).timestamp ∧
      (c.pathLen b < c.pathLen a ∨ c.pathLen b = c.pathLen a ∧ a ≤ b))

instance (a b : NodeId) : Decidable (c.EvictsBefore a b) := by
  unfold EvictsBefore
  infer_instance

/-- `_snapshot_nodes` without a reference. -/
def mambaCands : List NodeId :=
  (List.range c.next).filter fun n =>
    (c.node n).linked && (c.node n).mambaValue.isSome && (c.node n).mambaRefCount == 0

def evictMambaLoop (num : Nat) : Evicting → List NodeId → Evicting
  | e, [] => e
  | e, node :: order =>
    if num ≤ e.freed then e
    else if (e.cache.node node).mambaValue = none ∨ (e.cache.node node).mambaRefCount ≠ 0 ∨
        node = root then
      evictMambaLoop num e order
    else if e.cache.isLeaf node = true ∧ (e.cache.node node).refCount = 0 then
      let path := (e.cache.rootPath node).tail
      let r := cascadeTombstoneLeaves (dropLeaf e node) path 0
      evictMambaLoop num { r.1 with freed := e.freed + 1 } order
    else
      let f := e.cache.freeNodeMamba node e.mambaSlots
      evictMambaLoop num
        { cache := f.1, kvIndices := e.kvIndices, mambaSlots := f.2, freed := e.freed + 1 } order

def evictMamba (num : Nat) : Evicting :=
  evictMambaLoop num ⟨c, [], [], 0⟩ (c.mambaCands.insertionSort c.EvictsBefore)

end HybridRadixCache

end FreeToken.KvCache
