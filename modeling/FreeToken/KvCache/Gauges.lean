import FreeToken.KvCache.Protection
import FreeToken.KvCache.Totals

/-!
# The gauges

`full_evictable`, `full_protected`, `mamba_evictable` and `mamba_protected` are
kept as counters next to the tree. They are totals over its nodes: every walk,
insert, lock, unlock and eviction changes a counter by what its nodes changed.

## Results

* `gauged_walk`, `Gauged.insert`, `Gauged.incLock`, `Gauged.decLock`,
  `Gauged.evictionKeeps` — the counters stay the totals.
-/

namespace FreeToken.KvCache

open FreeToken.Lib RadixTree

inductive Gauge
  | fullEvictable
  | fullProtected
  | mambaEvictable
  | mambaProtected
  deriving DecidableEq, Repr

/-- What a node adds to each counter. -/
def Node.gauge (x : Node) : Gauge → ℤ
  | .fullEvictable => if x.refCount = 0 then x.length else 0
  | .fullProtected => if x.refCount = 0 then 0 else x.length
  | .mambaEvictable => if x.mambaValue.isSome ∧ x.mambaRefCount = 0 then 1 else 0
  | .mambaProtected => if x.mambaValue.isSome ∧ x.mambaRefCount ≠ 0 then 1 else 0

theorem divides_gauge : Divides Node.gauge := by
  intro x pos s
  funext g
  have hlen : (x.key.take pos).length + (x.key.drop pos).length = x.key.length := by
    rw [← List.length_append, List.take_append_drop]
  cases g with
  | fullEvictable =>
    show (if x.refCount = 0 then ((x.key.take pos).length : ℤ) else 0) +
      (if x.refCount = 0 then ((x.key.drop pos).length : ℤ) else 0) =
      if x.refCount = 0 then (x.key.length : ℤ) else 0
    split <;> omega
  | fullProtected =>
    show (if x.refCount = 0 then 0 else ((x.key.take pos).length : ℤ)) +
      (if x.refCount = 0 then 0 else ((x.key.drop pos).length : ℤ)) =
      if x.refCount = 0 then 0 else (x.key.length : ℤ)
    split <;> omega
  | mambaEvictable => exact zero_add _
  | mambaProtected => exact zero_add _

namespace HybridRadixCache

def gauge (c : HybridRadixCache) : Gauge → ℤ
  | .fullEvictable => c.fullEvictable
  | .fullProtected => c.fullProtected
  | .mambaEvictable => c.mambaEvictable
  | .mambaProtected => c.mambaProtected

/-- The counters are what the nodes of the tree add up to. -/
def Gauged (c : HybridRadixCache) : Prop := c.gauge = c.total Node.gauge

variable {c c' : HybridRadixCache} {held : List NodeId} {n : NodeId}

theorem gauged_empty (ps : Nat) : (empty ps).Gauged := by
  rw [Gauged, show (empty ps).total Node.gauge = 0 from total_empty ps _]
  funext g
  cases g <;> rfl

/-- One node changed, and the counters by the difference. -/
theorem Gauged.modify (h : c.Gauged) (hn : (c.node n).linked = true) (hw : c.Wf) {f : Node → Node}
    (hl : (f (c.node n)).linked = true) (ht : c'.toRadixTree = c.modify n f)
    (hg : ∀ g, c'.gauge g + (c.node n).gauge g = c.gauge g + (f (c.node n)).gauge g) :
    c'.Gauged := by
  have hmod := total_modify Node.gauge (hw.linked_lt hn) f
  rw [Node.weight, Node.weight, if_pos hn, if_pos hl, ← ht] at hmod
  rw [Gauged] at h ⊢
  refine add_right_cancel (b := (c.node n).gauge) ?_
  rw [hmod, ← h]
  exact funext hg

theorem gauge_same {f : Node → Node} (hf : Annotates f) (x : Node) : (f x).gauge = x.gauge := by
  funext g
  cases g <;> simp only [Node.gauge, Node.length, hf.key, hf.refCount, hf.mambaValue,
    hf.mambaRefCount]

theorem Gauged.annotate (h : c.Gauged) {f : Node → Node} (hf : Annotates f) (n : NodeId) :
    ({ c with toRadixTree := c.modify n f } : HybridRadixCache).Gauged :=
  h.trans (total_modify_same c.toRadixTree n hf.linked (gauge_same hf)).symm

/-- A match changes no total. -/
theorem walkKeeps_total (v : Gauge → ℤ) : WalkKeeps fun t => t.total Node.gauge = v where
  annotate := fun t n f _ hf h => by rw [total_modify_same t n hf.linked (gauge_same hf), h]
  split := fun t n pos hw hok h => by rw [total_splitAt hw hok divides_gauge, h]

theorem gauged_walk (h : c.Gauged) (hw : c.Wf) (inputIds : List Token) (tic : Time) :
    (c.walk inputIds tic).1.Gauged := by
  have ht := (walkKeeps_total _).walk hw rfl inputIds tic
  exact h.trans ht.symm

-- ---------------------------------------------------------------------------
-- Inserts
-- ---------------------------------------------------------------------------

theorem Gauged.addLeaf (h : c.Gauged) (p : NodeId) (key : List Token) (value : List KvIndex)
    (now : Time) : ({ c with
      toRadixTree := (c.toRadixTree.addLeaf p key value now).1
      fullEvictable := c.fullEvictable + key.length } : HybridRadixCache).Gauged := by
  rw [Gauged] at h ⊢
  rw [total_addLeaf, ← h]
  funext g
  cases g with
  | fullEvictable => rfl
  | fullProtected => exact (add_zero _).symm
  | mambaEvictable => exact (add_zero _).symm
  | mambaProtected => exact (add_zero _).symm

theorem Gauged.donate (h : c.Gauged) (hp : Protected c.toRadixTree held) (hw : c.Wf)
    (hn : c.InTree n) (slot : Slot) (sums : Option Nat) (kind : SnapshotKind) :
    (c.donate n slot sums kind).1.Gauged := by
  rw [HybridRadixCache.donate]
  split
  · exact h
  rename_i hroot
  have hl := hn.resolve_left hroot
  split
  · exact h.annotate (annotates_note sums kind) n
  · rename_i hnone
    -- without a snapshot there is no reference to one
    have href : (c.node n).mambaRefCount = 0 := by
      by_contra hne
      exact hp.live n (Nat.pos_of_ne_zero hne) (by simpa using hnone)
    refine h.modify (f := attached slot kind sums) hl hw hl rfl fun g => ?_
    cases g with
    | fullEvictable => rfl
    | fullProtected => rfl
    | mambaEvictable =>
      simp [gauge, Node.gauge, attached, href, hnone]
    | mambaProtected => simp [gauge, Node.gauge, attached, href]

/-- The gauges of what an insert's walk and leaf leave. -/
theorem Gauged.extendPath (h : c.Gauged) (hw : c.Wf) {inputIds : List Token}
    {kvIndices : List KvIndex} {tic now : Time} {len : Nat}
    (hext : c.extendPath inputIds kvIndices tic now = some (c', n, len)) : c'.Gauged := by
  have hwalk := gauged_walk h hw inputIds tic
  simp only [HybridRadixCache.extendPath] at hext
  split at hext
  · cases hext
    exact hwalk
  split at hext
  · cases hext
  · cases hext
    exact hwalk.addLeaf _ _ _ _

theorem Gauged.insert (h : c.Gauged) (hp : Protected c.toRadixTree held) (hw : c.Wf)
    {inputIds : List Token} {kvIndices : List KvIndex} {slot : Slot} {sums : Option Nat}
    {kind : SnapshotKind} {tic now : Time} {r : Nat × Bool} (hslot : c.SlotFree slot)
    (hins : c.insert inputIds kvIndices slot sums kind tic now = some (c', r)) : c'.Gauged := by
  simp only [HybridRadixCache.insert] at hins
  split at hins
  · cases hins
  obtain ⟨⟨d, node, len⟩, hext, hd⟩ := Option.map_eq_some_iff.mp hins
  cases hd
  have hpages : c.pageSize ∣ (inputIds.take (alignDown inputIds.length c.pageSize)).length := by
    rw [List.length_take, Nat.min_eq_left (alignDown_le _ _)]
    exact dvd_alignDown _ _
  obtain ⟨hpd, hd⟩ := extendPath_induct (Protected.insertKeeps held kvIndices slot) hw hslot hpages
    hext hp
  exact (h.extendPath hw hext).donate hpd hd.wf hd.inTree slot sums kind

-- ---------------------------------------------------------------------------
-- Locks
-- ---------------------------------------------------------------------------

theorem Gauged.incRef (h : c.Gauged) (hw : c.Wf) (hn : (c.node n).linked = true) :
    (c.incRef n).Gauged := by
  refine h.modify (f := Node.addRef) hn hw hn rfl fun g => ?_
  by_cases hz : (c.node n).refCount = 0
  · cases g with
    | fullEvictable => simp [gauge, HybridRadixCache.incRef, Node.gauge, Node.addRef, Node.length, hz]
    | fullProtected => simp [gauge, HybridRadixCache.incRef, Node.gauge, Node.addRef, Node.length, hz]
    | mambaEvictable => rfl
    | mambaProtected => rfl
  · cases g with
    | fullEvictable => simp [gauge, HybridRadixCache.incRef, Node.gauge, Node.addRef, hz]
    | fullProtected => simp [gauge, HybridRadixCache.incRef, Node.gauge, Node.addRef, Node.length, hz]
    | mambaEvictable => rfl
    | mambaProtected => rfl

theorem Gauged.incMambaRef (h : c.Gauged) (hw : c.Wf) (hn : (c.node n).mambaValue.isSome) :
    (c.incMambaRef n).Gauged := by
  obtain ⟨s, hs⟩ := Option.isSome_iff_exists.mp hn
  have hl := hw.snapshot_linked n s hs
  refine h.modify (f := Node.addMambaRef) hl hw hl rfl fun g => ?_
  by_cases hz : (c.node n).mambaRefCount = 0
  · cases g <;>
      simp [gauge, HybridRadixCache.incMambaRef, Node.gauge, Node.addMambaRef, Node.length, hz, hs]
  · cases g <;>
      simp [gauge, HybridRadixCache.incMambaRef, Node.gauge, Node.addMambaRef, Node.length, hz, hs]

theorem Gauged.decRef (h : c.Gauged) (hw : c.Wf) (hn : (c.node n).linked = true)
    (hdec : c.decRef n = some c') : c'.Gauged := by
  rw [HybridRadixCache.decRef] at hdec
  split at hdec
  · cases hdec
  rename_i hpos
  cases hdec
  refine h.modify (f := Node.dropRef) hn hw hn rfl fun g => ?_
  by_cases hone : (c.node n).refCount = 1
  · cases g with
    | fullEvictable => simp [gauge, Node.gauge, Node.dropRef, Node.length, hone]
    | fullProtected => simp [gauge, Node.gauge, Node.dropRef, Node.length, hone]
    | mambaEvictable => rfl
    | mambaProtected => rfl
  · have hne : (c.node n).refCount - 1 ≠ 0 := by omega
    cases g with
    | fullEvictable => simp [gauge, Node.gauge, Node.dropRef, hone, hpos, hne]
    | fullProtected => simp [gauge, Node.gauge, Node.dropRef, Node.length, hone, hpos, hne]
    | mambaEvictable => rfl
    | mambaProtected => rfl

theorem Gauged.decMambaRef (h : c.Gauged) (hw : c.Wf) (hg : c.givesBack n = true) :
    (c.decMambaRef n).Gauged := by
  rw [givesBack, Bool.and_eq_true, decide_eq_true_iff] at hg
  obtain ⟨hsome, hpos⟩ := hg
  obtain ⟨s, hs⟩ := Option.isSome_iff_exists.mp hsome
  have hl := hw.snapshot_linked n s hs
  refine h.modify (f := Node.dropMambaRef) hl hw hl rfl fun g => ?_
  by_cases hone : (c.node n).mambaRefCount = 1
  · cases g <;> simp [gauge, HybridRadixCache.decMambaRef, Node.gauge, Node.dropMambaRef,
      Node.length, hone, hs]
  · have hne : (c.node n).mambaRefCount - 1 ≠ 0 := by omega
    have hz : (c.node n).mambaRefCount ≠ 0 := by omega
    cases g <;> simp [gauge, HybridRadixCache.decMambaRef, Node.gauge, Node.dropMambaRef,
      Node.length, hone, hs, hne, hz]

theorem Gauged.foldl_incRef {l : List NodeId} (h : c.Gauged) (hw : c.Wf)
    (hl : ∀ m ∈ l, (c.node m).linked = true) : (l.foldl HybridRadixCache.incRef c).Gauged := by
  induction l generalizing c with
  | nil => exact h
  | cons a l ih =>
    have hc := LockInv.counted_incRef c a
    refine ih (h.incRef hw (hl a List.mem_cons_self)) (hc.wf hw) fun m hm => ?_
    rw [hc.linked]
    exact hl m (List.mem_cons_of_mem _ hm)

theorem Gauged.incLock (h : c.Gauged) (hw : c.Wf) (hn : c.InTree n) : (c.incLock n).Gauged := by
  rw [HybridRadixCache.incLock]
  split
  · rename_i hs
    have hc := LockInv.counted_incMambaRef c n
    refine (h.incMambaRef hw hs).foldl_incRef (hc.wf hw) fun m hm => ?_
    rw [hc.rootPath_eq] at hm
    rw [hc.linked]
    exact hw.linked_of_mem_rootPath hn m hm
  · exact h.foldl_incRef hw (hw.linked_of_mem_rootPath hn)

theorem Gauged.foldlM_decRef {l : List NodeId} (h : c.Gauged) (hw : c.Wf)
    (hl : ∀ m ∈ l, (c.node m).linked = true)
    (hdec : l.foldlM HybridRadixCache.decRef c = some c') : c'.Gauged := by
  induction l generalizing c with
  | nil =>
    cases hdec
    exact h
  | cons a l ih =>
    rw [List.foldlM_cons] at hdec
    obtain ⟨d, hd, hdec⟩ := Option.bind_eq_some_iff.mp hdec
    have hc := LockInv.counted_decRef hd
    refine ih (h.decRef hw (hl a List.mem_cons_self) hd) (hc.wf_symm hw) (fun m hm => ?_) hdec
    rw [← hc.linked]
    exact hl m (List.mem_cons_of_mem _ hm)

theorem Gauged.decLock (h : c.Gauged) (hw : c.Wf) (hn : c.InTree n)
    (hdec : c.decLock n = some c') : c'.Gauged := by
  rw [HybridRadixCache.decLock] at hdec
  by_cases hg : c.givesBack n = true
  · rw [if_pos hg] at hdec
    have hc := LockInv.counted_decMambaRef (LockInv.pos_of_givesBack hg)
    refine (h.decMambaRef hw hg).foldlM_decRef (hc.wf_symm hw) (fun m hm => ?_) hdec
    rw [← hc.rootPath_eq] at hm
    rw [← hc.linked]
    exact hw.linked_of_mem_rootPath hn m hm
  · rw [if_neg hg] at hdec
    exact h.foldlM_decRef hw (hw.linked_of_mem_rootPath hn) hdec

-- ---------------------------------------------------------------------------
-- Evictions
-- ---------------------------------------------------------------------------

theorem Gauged.freeNodeMamba (h : c.Gauged) (hw : c.Wf) (href : (c.node n).mambaRefCount = 0)
    (out : List Slot) : (c.freeNodeMamba n out).1.Gauged := by
  cases hs : (c.node n).mambaValue with
  | none =>
    rw [freeNodeMamba_none hs]
    exact h
  | some s =>
    have hl := hw.snapshot_linked n s hs
    refine h.modify hl hw hl (freeNodeMamba_some hs out).1 fun g => ?_
    rw [HybridRadixCache.freeNodeMamba, hs]
    cases g <;> simp [gauge, Node.gauge, Node.length, href, hs]

theorem Gauged.dropLeaf {e : Evicting} (h : e.cache.Gauged)
    (hp : Protected e.cache.toRadixTree held) (hw : e.cache.Wf)
    (hn : (e.cache.node n).linked = true) (href : (e.cache.node n).refCount = 0) :
    (dropLeaf e n).cache.Gauged := by
  have hmref := hp.unreferenced hw hn href
  have hfree := h.freeNodeMamba hw hmref e.mambaSlots
  have hwf := freeNodeMamba_wf hw n e.mambaSlots
  have hshape := freeNodeMamba_sameShape e.cache n e.mambaSlots
  have hsnap := freeNodeMamba_mambaValue e.cache n n e.mambaSlots
  have hcount := (freeNodeMamba_counts e.cache n n e.mambaSlots).1
  rw [if_pos rfl] at hsnap
  rw [href] at hcount
  have hlen : ((e.cache.freeNodeMamba n e.mambaSlots).1.node n).length = (e.cache.node n).length :=
    congrArg List.length (hshape.key n)
  have htot := total_unlink Node.gauge hwf (by rw [hshape.linked]; exact hn)
  refine add_right_cancel (b := ((e.cache.freeNodeMamba n e.mambaSlots).1.node n).gauge) ?_
  rw [dropLeaf_tree, htot, ← hfree]
  funext g
  rw [HybridRadixCache.dropLeaf]
  generalize e.cache.freeNodeMamba n e.mambaSlots = f at hsnap hcount hlen
  cases g <;> simp [gauge, Node.gauge, hsnap, hcount, hlen]

theorem Gauged.evictionKeeps (held : List NodeId) : EvictionKeeps fun e =>
    Protected e.cache.toRadixTree held ∧ e.cache.Gauged where
  drop := fun _ _ hw hn _ href h => ⟨h.1.dropLeaf hw hn href, h.2.dropLeaf h.1 hw hn href⟩
  free := fun _ _ _ hw _ href h => ⟨h.1.freeNodeMamba href _, h.2.freeNodeMamba hw href _⟩
  freed := fun _ _ h => h

end HybridRadixCache

end FreeToken.KvCache
