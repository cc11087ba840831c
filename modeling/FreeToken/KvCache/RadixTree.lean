import FreeToken.Lib.Forest
import FreeToken.Lib.Pages
import Mathlib.Algebra.Ring.Nat
import Mathlib.Logic.Function.Basic

/-!
# The radix tree

`kvcache/radix_cache.py`'s `RadixTreeNode` and the walk that the prefix caches
share. Node objects live in a heap indexed by their `uuid`: other objects hold
references to them, and a node may outlive its place in the tree. A node's entry
in its parent's `children` is the flag `linked`, so the children of `p` are the
linked nodes whose parent is `p`; the dict's keys are their first pages.
`pin_sessions` and `pooled_count`, which no operation here reads, are left out.
-/

namespace FreeToken.KvCache

open FreeToken.Lib

abbrev Token := Nat
abbrev NodeId := Nat
abbrev KvIndex := Nat
abbrev Slot := Nat
abbrev Time := Nat

/-- What a snapshot marks: a prefill-chunk boundary, the end of the leading
system segment, or a request's end (`"end"`). -/
inductive SnapshotKind
  | chunk
  | segment
  | final
  deriving DecidableEq, Repr

structure Node where
  parent : Option NodeId := none
  linked : Bool := false
  key : List Token := []
  value : List KvIndex := []
  refCount : Nat := 0
  timestamp : Time := 0
  mambaValue : Option Slot := none
  mambaRefCount : Nat := 0
  snapshotKind : SnapshotKind := .chunk
  /-- The host tensor of residual sums, by name. -/
  pooledSums : Option Nat := none
  swaTombstone : Bool := false
  swaRefCount : Nat := 0
  swaUuid : Option Nat := none
  deriving DecidableEq, Repr

def Node.length (n : Node) : Nat := n.key.length

def Node.addRef (x : Node) : Node := { x with refCount := x.refCount + 1 }

def Node.dropRef (x : Node) : Node := { x with refCount := x.refCount - 1 }

structure RadixTree where
  pageSize : Nat
  node : NodeId → Node
  /-- `RadixTreeNode.counter`: the next uuid. -/
  next : NodeId

namespace RadixTree

/-- The root is the first node made, and always protected. -/
def empty (pageSize : Nat) : RadixTree where
  pageSize := pageSize
  node := fun n => if n = 0 then { refCount := 1 } else {}
  next := 1

abbrev root : NodeId := 0

def modify (t : RadixTree) (n : NodeId) (f : Node → Node) : RadixTree :=
  { t with node := Function.update t.node n (f (t.node n)) }

def stamp (t : RadixTree) (n : NodeId) (tic : Time) : RadixTree :=
  t.modify n fun x => { x with timestamp := tic }

/-- `parent.children.get(key_fn(toks))`. -/
def childOf (t : RadixTree) (p : NodeId) (toks : List Token) : Option NodeId :=
  (List.range t.next).find? fun c =>
    (t.node c).linked && (t.node c).parent == some p &&
      (t.node c).key.take t.pageSize == toks.take t.pageSize

def isLeaf (t : RadixTree) (n : NodeId) : Bool :=
  (List.range t.next).all fun c => !((t.node c).linked && (t.node c).parent == some n)

/-- The node and its ancestors below the root, nearest first: what a
`while not cur.is_root()` loop visits. -/
def rootPath (t : RadixTree) (n : NodeId) : List NodeId :=
  climb (fun m => (t.node m).parent) t.next n

def pathLen (t : RadixTree) (n : NodeId) : Nat :=
  ((t.rootPath n).map fun m => (t.node m).length).sum

def collectKv (t : RadixTree) (n : NodeId) : List KvIndex :=
  (t.rootPath n).reverse.flatMap fun m => (t.node m).value

/-- The tokens a node stands for. -/
def pathTokens (t : RadixTree) (n : NodeId) : List Token :=
  (t.rootPath n).reverse.flatMap fun m => (t.node m).key

/-- The new node takes the first `pos` tokens, the lock counts, the window boundary
and the place in the parent's `children`; the old object keeps the rest and its
snapshot. -/
def splitAt (t : RadixTree) (n : NodeId) (pos : Nat) : RadixTree × NodeId :=
  let x := t.node n
  let s := t.next
  let newNode : Node :=
    { parent := x.parent, linked := true, key := x.key.take pos, value := x.value.take pos,
      refCount := x.refCount, timestamp := x.timestamp, swaTombstone := x.swaTombstone,
      swaRefCount := x.swaRefCount, swaUuid := x.swaUuid }
  ({ t with
      node := Function.update
        (Function.update t.node n
          { x with
            parent := some s, key := x.key.drop pos, value := x.value.drop pos
            swaUuid := none })
        s newNode
      next := s + 1 }, s)

/-- A new leaf below `p`. -/
def addLeaf (t : RadixTree) (p : NodeId) (key : List Token) (value : List KvIndex) (now : Time) :
    RadixTree × NodeId :=
  ({ t with
      node := Function.update t.node t.next
        { parent := some p, linked := true, key := key, value := value, timestamp := now }
      next := t.next + 1 }, t.next)

/-- `_unlink`: the entry leaves the parent's `children`; the object stays. -/
def unlink (t : RadixTree) (n : NodeId) : RadixTree :=
  t.modify n fun x => { x with linked := false }

/-- The `while prefix_len < total` loop of `_walk`, from `n` on; `rest` is
`input_ids[prefix_len:]`. Every round consumes a page, so the input's length is
fuel enough (`walkLoop_end`). -/
def walkLoop (tic : Time) : Nat → RadixTree → NodeId → List Token → Nat →
    RadixTree × NodeId × Nat
  | 0, t, n, _, prefixLen => (t, n, prefixLen)
  | fuel + 1, t, n, rest, prefixLen =>
    if rest = [] then (t, n, prefixLen)
    else
      match t.childOf n rest with
      | none => (t, n, prefixLen)
      | some c =>
        let matchLen := alignDown (commonPrefixLen (t.node c).key rest) t.pageSize
        if matchLen ≠ (t.node c).length then
          let split := t.splitAt c matchLen
          (split.1.stamp split.2 tic, split.2, prefixLen + matchLen)
        else
          walkLoop tic fuel (t.stamp c tic) c (rest.drop matchLen) (prefixLen + matchLen)

/-- `_walk`. -/
def walk (t : RadixTree) (inputIds : List Token) (tic : Time) : RadixTree × NodeId × Nat :=
  walkLoop tic inputIds.length t root inputIds 0

/-- `heapq.heappop` of a heap of nodes: the `tie`-th of the oldest ones. -/
def popOldest (t : RadixTree) (tie : Nat) (heap : List NodeId) : Option NodeId :=
  let oldest := heap.filter fun n => heap.all fun m => (t.node n).timestamp ≤ (t.node m).timestamp
  oldest[tie % oldest.length]?

theorem popOldest_mem {t : RadixTree} {tie : Nat} {heap : List NodeId} {n : NodeId}
    (h : t.popOldest tie heap = some n) : n ∈ heap :=
  (List.mem_filter.mp (List.mem_of_getElem? h)).1

-- ---------------------------------------------------------------------------
-- Reading a tree after one mutation
-- ---------------------------------------------------------------------------

variable (t : RadixTree) (n m : NodeId)

@[simp] theorem modify_next (f : Node → Node) : (t.modify n f).next = t.next := rfl

@[simp] theorem modify_pageSize (f : Node → Node) : (t.modify n f).pageSize = t.pageSize := rfl

@[simp] theorem stamp_next (tic : Time) : (t.stamp n tic).next = t.next := rfl

@[simp] theorem stamp_pageSize (tic : Time) : (t.stamp n tic).pageSize = t.pageSize := rfl

@[simp] theorem unlink_next : (t.unlink n).next = t.next := rfl

@[simp] theorem unlink_pageSize : (t.unlink n).pageSize = t.pageSize := rfl

theorem modify_node (f : Node → Node) :
    (t.modify n f).node m = if m = n then f (t.node m) else t.node m := by
  show Function.update t.node n (f (t.node n)) m = _
  rw [Function.update_apply]
  split
  · rename_i h
    rw [h]
  · rfl

/-- A field that `f` leaves alone reads as before. -/
theorem modify_field {β : Type*} {f : Node → Node} (g : Node → β) (h : ∀ x, g (f x) = g x) :
    g ((t.modify n f).node m) = g (t.node m) := by
  rw [modify_node]
  split
  · exact h _
  · rfl

theorem splitAt_old (pos : Nat) (hm : m ≠ n) (hs : m ≠ t.next) :
    (t.splitAt n pos).1.node m = t.node m := by
  show Function.update (Function.update t.node n _) t.next _ m = _
  rw [Function.update_of_ne hs, Function.update_of_ne hm]

theorem splitAt_suffix (pos : Nat) (hn : n ≠ t.next) :
    (t.splitAt n pos).1.node n =
      { t.node n with
        parent := some t.next, key := (t.node n).key.drop pos,
        value := (t.node n).value.drop pos, swaUuid := none } := by
  show Function.update (Function.update t.node n _) t.next _ n = _
  rw [Function.update_of_ne hn, Function.update_self]

theorem splitAt_prefixLen (pos : Nat) :
    (t.splitAt n pos).1.node t.next =
      { parent := (t.node n).parent, linked := true, key := (t.node n).key.take pos,
        value := (t.node n).value.take pos, refCount := (t.node n).refCount,
        timestamp := (t.node n).timestamp, swaTombstone := (t.node n).swaTombstone,
        swaRefCount := (t.node n).swaRefCount, swaUuid := (t.node n).swaUuid } := by
  show Function.update (Function.update t.node n _) t.next _ t.next = _
  rw [Function.update_self]

@[simp] theorem splitAt_next (pos : Nat) : (t.splitAt n pos).1.next = t.next + 1 := rfl

@[simp] theorem splitAt_pageSize (pos : Nat) : (t.splitAt n pos).1.pageSize = t.pageSize := rfl

@[simp] theorem splitAt_snd (pos : Nat) : (t.splitAt n pos).2 = t.next := rfl

theorem addLeaf_old (key : List Token) (value : List KvIndex) (now : Time) (hm : m ≠ t.next) :
    (t.addLeaf n key value now).1.node m = t.node m := by
  show Function.update t.node t.next _ m = _
  rw [Function.update_of_ne hm]

theorem addLeaf_new (key : List Token) (value : List KvIndex) (now : Time) :
    (t.addLeaf n key value now).1.node t.next =
      { parent := some n, linked := true, key := key, value := value, timestamp := now } := by
  show Function.update t.node t.next _ t.next = _
  rw [Function.update_self]

@[simp] theorem addLeaf_next (key : List Token) (value : List KvIndex) (now : Time) :
    (t.addLeaf n key value now).1.next = t.next + 1 := rfl

@[simp] theorem addLeaf_pageSize (key : List Token) (value : List KvIndex) (now : Time) :
    (t.addLeaf n key value now).1.pageSize = t.pageSize := rfl

@[simp] theorem addLeaf_snd (key : List Token) (value : List KvIndex) (now : Time) :
    (t.addLeaf n key value now).2 = t.next := rfl

end RadixTree

end FreeToken.KvCache
