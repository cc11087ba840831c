import FreeToken.KvCache.EvictionYield
import FreeToken.KvCache.RadixPrefixCache

/-!
# Locks and sizes of the prefix cache

`evictable_size` and `protected_size` are the lengths of the unlocked and the
locked nodes.

## Results

* `Sized.walk`, `Sized.addLeaf`, `Sized.lockHandle`, `Sized.takeLeaf` — the counters
  stay the lengths;
* `counted_lock`, `counted_unlock`, `unlock_isSome` — what a lock and its end count.
-/

namespace FreeToken.KvCache

open FreeToken.Lib RadixTree LockInv

/-- What a node adds to `evictable_size` and to `protected_size`. -/
def Node.sizes (x : Node) : ℤ × ℤ := if x.refCount = 0 then (x.length, 0) else (0, x.length)

theorem divides_sizes : Divides Node.sizes := by
  intro x pos s
  have happ : (x.key.take pos).length + (x.key.drop pos).length = x.key.length := by
    rw [← List.length_append, List.take_append_drop]
  have hlen : ((x.key.take pos).length : ℤ) + (x.key.drop pos).length = x.key.length := by
    omega
  simp only [Node.sizes, Node.length]
  split
  · exact Prod.ext hlen (add_zero 0)
  · exact Prod.ext (add_zero 0) hlen

namespace RadixPrefixCache

variable {c c' : RadixPrefixCache} {held : List NodeId} {n : NodeId}

/-- The counters are what the nodes of the tree add up to. -/
def Sized (c : RadixPrefixCache) : Prop :=
  (c.evictableSize, c.protectedSize) = c.total Node.sizes

theorem sized_empty (ps : Nat) : (empty ps).Sized := (total_empty ps Node.sizes).symm

/-- One node changed, and the counters by the difference. -/
theorem Sized.modify (h : c.Sized) (hw : c.Wf) (hn : (c.node n).linked = true) {f : Node → Node}
    (hl : (f (c.node n)).linked = true) (ht : c'.toRadixTree = c.modify n f)
    (hs : (c'.evictableSize, c'.protectedSize) + (c.node n).sizes =
      (c.evictableSize, c.protectedSize) + (f (c.node n)).sizes) : c'.Sized := by
  have hmod := total_modify Node.sizes (hw.linked_lt hn) f
  rw [Node.weight, Node.weight, if_pos hn, if_pos hl, ← ht] at hmod
  rw [Sized] at h ⊢
  refine add_right_cancel (b := (c.node n).sizes) ?_
  rw [hmod, ← h, hs]

theorem sizes_same {f : Node → Node} (hf : Annotates f) (x : Node) : (f x).sizes = x.sizes := by
  simp only [Node.sizes, Node.length, hf.key, hf.refCount]

/-- A match changes no length. -/
theorem walkKeeps_sizes (v : ℤ × ℤ) : WalkKeeps fun t => t.total Node.sizes = v where
  annotate := fun t n f _ hf h => by rw [total_modify_same t n hf.linked (sizes_same hf), h]
  split := fun t n pos hw hok h => by rw [total_splitAt hw hok divides_sizes, h]

theorem Sized.walk (h : c.Sized) (hw : c.Wf) (inputIds : List Token) (tic : Time) :
    ({ c with toRadixTree := (c.walk inputIds tic).1 } : RadixPrefixCache).Sized := by
  have ht := (walkKeeps_sizes _).walk hw rfl inputIds tic
  exact Eq.trans h ht.symm

theorem Sized.addLeaf (h : c.Sized) (p : NodeId) (key : List Token) (value : List KvIndex)
    (now : Time) : ({ c with
      toRadixTree := (c.toRadixTree.addLeaf p key value now).1
      evictableSize := c.evictableSize + key.length } : RadixPrefixCache).Sized := by
  rw [Sized] at h ⊢
  rw [total_addLeaf, ← h]
  exact Prod.ext rfl (add_zero _).symm

-- ---------------------------------------------------------------------------
-- Locks
-- ---------------------------------------------------------------------------

theorem counted_lockNode (c : RadixPrefixCache) (n : NodeId) :
    Counted c.toRadixTree (c.lockNode n).toRadixTree (at1 n) fun _ => 0 :=
  (counted_up recounts_addRef (r := 1) (q := 0) (fun _ => rfl) (fun _ => rfl) _ n).congr
    (fun _ => Nat.one_mul _) fun _ => Nat.zero_mul _

theorem counted_unlockNode (h : c.unlockNode n = some c') :
    Counted c'.toRadixTree c.toRadixTree (at1 n) fun _ => 0 := by
  rw [unlockNode] at h
  split at h
  · cases h
  rename_i hpos
  cases h
  have hr : (c.node n).refCount = (c.node n).dropRef.refCount + 1 := by
    show _ = (c.node n).refCount - 1 + 1
    omega
  exact (counted_down recounts_dropRef hr rfl).congr (fun _ => Nat.one_mul _)
    fun _ => Nat.zero_mul _

/-- A lock counts one more on every node of the path. -/
theorem counted_lock {handle : RadixCacheHandle} (h : c.lockHandle handle false = some c') :
    Counted c.toRadixTree c'.toRadixTree (fun m => (c.rootPath handle.node).count m)
      fun _ => 0 := by
  cases h
  exact counted_foldl (f := fun c : RadixPrefixCache => c.toRadixTree) counted_lockNode _ c

/-- An unlock counts one less. -/
theorem counted_unlock {handle : RadixCacheHandle} (h : c.lockHandle handle true = some c') :
    Counted c'.toRadixTree c.toRadixTree (fun m => (c.rootPath handle.node).count m)
      fun _ => 0 :=
  counted_foldlM (f := fun c : RadixPrefixCache => c.toRadixTree)
    (fun _ _ _ h => counted_unlockNode h) h

/-- The assertion of an unlock holds for every lock that is held. -/
theorem unlock_isSome (h : RefInv c.toRadixTree held) (hw : c.Wf) {handle : RadixCacheHandle}
    (hk : handle.node ∈ held) : (c.lockHandle handle true).isSome :=
  foldlM_isSome (f := fun c : RadixPrefixCache => c.toRadixTree)
    (fun _ _ _ h => counted_unlockNode h) (fun d a ha => by
      rw [unlockNode, if_neg (Nat.ne_of_gt ha)]
      rfl) (hw.upPath _).nodup fun _ hm => h.refCount_pos hw hk hm

theorem Sized.lockNode (h : c.Sized) (hw : c.Wf) (hn : (c.node n).linked = true) :
    (c.lockNode n).Sized := by
  refine h.modify hw hn (f := Node.addRef) hn rfl ?_
  by_cases hz : (c.node n).refCount = 0
  · simp [RadixPrefixCache.lockNode, Node.sizes, Node.addRef, Node.length, hz]
  · simp [RadixPrefixCache.lockNode, Node.sizes, Node.addRef, Node.length, hz]

theorem Sized.unlockNode (h : c.Sized) (hw : c.Wf) (hn : (c.node n).linked = true)
    (hun : c.unlockNode n = some c') : c'.Sized := by
  rw [RadixPrefixCache.unlockNode] at hun
  split at hun
  · cases hun
  rename_i hpos
  cases hun
  refine h.modify hw hn (f := Node.dropRef) hn rfl ?_
  by_cases hone : (c.node n).refCount = 1
  · simp [Node.sizes, Node.dropRef, Node.length, hone]
  · have hne : (c.node n).refCount - 1 ≠ 0 := by omega
    simp [Node.sizes, Node.dropRef, Node.length, hone, hpos, hne]

theorem Sized.foldl_lockNode {l : List NodeId} (h : c.Sized) (hw : c.Wf)
    (hl : ∀ m ∈ l, (c.node m).linked = true) :
    (l.foldl RadixPrefixCache.lockNode c).Sized := by
  induction l generalizing c with
  | nil => exact h
  | cons a l ih =>
    have hc := counted_lockNode c a
    refine ih (h.lockNode hw (hl a List.mem_cons_self)) (hc.wf hw) fun m hm => ?_
    rw [hc.linked]
    exact hl m (List.mem_cons_of_mem _ hm)

theorem Sized.foldlM_unlockNode {l : List NodeId} (h : c.Sized) (hw : c.Wf)
    (hl : ∀ m ∈ l, (c.node m).linked = true)
    (hun : l.foldlM RadixPrefixCache.unlockNode c = some c') : c'.Sized := by
  induction l generalizing c with
  | nil =>
    cases hun
    exact h
  | cons a l ih =>
    rw [List.foldlM_cons] at hun
    obtain ⟨d, hd, hun⟩ := Option.bind_eq_some_iff.mp hun
    have hc := counted_unlockNode hd
    refine ih (h.unlockNode hw (hl a List.mem_cons_self) hd) (hc.wf_symm hw) (fun m hm => ?_) hun
    rw [← hc.linked]
    exact hl m (List.mem_cons_of_mem _ hm)

theorem Sized.lockHandle (h : c.Sized) (hw : c.Wf) {handle : RadixCacheHandle}
    (hn : c.InTree handle.node) {unlock : Bool} (hlock : c.lockHandle handle unlock = some c') :
    c'.Sized := by
  have hl := hw.linked_of_mem_rootPath hn
  cases unlock with
  | false =>
    cases hlock
    exact h.foldl_lockNode hw hl
  | true => exact h.foldlM_unlockNode hw hl hlock

-- ---------------------------------------------------------------------------
-- Eviction
-- ---------------------------------------------------------------------------

theorem Sized.takeLeaf {e : PrefixEvicting} (h : e.cache.Sized) (hw : e.cache.Wf)
    (hn : (e.cache.node n).linked = true) (href : (e.cache.node n).refCount = 0) :
    (takeLeaf e n).cache.Sized := by
  have htot := total_unlink Node.sizes hw hn
  refine add_right_cancel (b := (e.cache.node n).sizes) ?_
  show (_, _) + _ = (e.cache.unlink n).total Node.sizes + _
  rw [htot, ← h, Node.sizes, if_pos href]
  exact Prod.ext (sub_add_cancel _ _) (add_zero _)

end RadixPrefixCache

end FreeToken.KvCache
