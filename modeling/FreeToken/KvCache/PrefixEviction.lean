import FreeToken.KvCache.PrefixCounts
import FreeToken.KvCache.PrefixMap

/-!
# Eviction from the prefix cache

`evict` pops unlocked leaves, oldest first, and pushes a parent that has become one.
Its heap is always all unlocked leaves; as counts do not grow towards the leaves, the
heap is not empty while something unlocked is left.

## Results

* `evictLoop_spec` — the assertions of `evict` hold, it returns as much as it was asked
  for, and it keeps what its moves keep;
* `PrefixInv` — the cache's invariant, kept by every call.
-/

namespace FreeToken.KvCache

open FreeToken.Lib RadixTree LockInv

namespace RadixPrefixCache

variable {c c' : RadixPrefixCache} {e e' : PrefixEvicting} {held : List NodeId} {n : NodeId}

/-- No node has a snapshot, and the root counts as locked. -/
structure Plain (t : RadixTree) : Prop where
  mambaValue : ∀ n, (t.node n).mambaValue = none
  root : (t.node root).refCount ≠ 0

theorem plain_empty (ps : Nat) : Plain (.empty ps) where
  mambaValue := fun n => by
    rw [empty_node]
    split <;> rfl
  root := Nat.one_ne_zero

theorem Plain.counted {t t' : RadixTree} {refs mamba : NodeId → Nat} (h : Plain t)
    (hc : Counted t t' refs mamba) : Plain t' where
  mambaValue := fun m => (hc.mambaValue m).trans (h.mambaValue m)
  root := by
    rw [hc.refCount]
    exact fun h0 => h.root (Nat.eq_zero_of_add_eq_zero_right h0)

theorem plain_walkKeeps : WalkKeeps Plain where
  annotate := fun t n f _ hf h =>
    ⟨fun m => (modify_field t n m Node.mambaValue hf.mambaValue).trans (h.mambaValue m),
      (modify_field t n _ Node.refCount hf.refCount).symm ▸ h.root⟩
  split := fun t n pos hw hok h => by
    have hn : n ≠ t.next := Nat.ne_of_lt (hw.linked_lt hok.linked)
    refine ⟨fun m => ?_, ?_⟩
    · rw [splitAt_mambaValue t n pos hn]
      split
      · rfl
      · exact h.mambaValue m
    · rw [splitAt_old t n _ pos (hw.linked_ne_root hok.linked).symm (Nat.ne_of_lt hw.root_lt)]
      exact h.root

theorem Plain.addLeaf {t : RadixTree} (h : Plain t) (hw : t.Wf) (p : NodeId) (key : List Token)
    (value : List KvIndex) (now : Time) : Plain (t.addLeaf p key value now).1 where
  mambaValue := fun m => by
    by_cases hm : m = t.next
    · rw [hm, addLeaf_new]
    · rw [addLeaf_old t p m key value now hm]
      exact h.mambaValue m
  root := by
    rw [addLeaf_old t p _ key value now (Nat.ne_of_lt hw.root_lt)]
    exact h.root

theorem Plain.unlink {t : RadixTree} (h : Plain t) (n : NodeId) : Plain (t.unlink n) where
  mambaValue := fun m => by
    rw [unlink_node]
    split
    · exact h.mambaValue m
    · exact h.mambaValue m
  root := by
    rw [unlink_node]
    split
    · exact h.root
    · exact h.root

/-- The heap of an eviction is the unlocked leaves. -/
structure LeafHeap (t : RadixTree) (heap : List NodeId) : Prop where
  nodup : heap.Nodup
  mem_iff : ∀ m, m ∈ heap ↔
    (t.node m).linked = true ∧ t.isLeaf m = true ∧ (t.node m).refCount = 0

/-- The heap after a leaf was taken: its parent joins when it is an unlocked leaf now. -/
theorem LeafHeap.unlink {t : RadixTree} {heap : List NodeId} (hh : LeafHeap t heap) (hw : t.Wf)
    (hroot : (t.node root).refCount ≠ 0) {p : NodeId} (hn : n ∈ heap)
    (hp : (t.node n).parent = some p) : LeafHeap (t.unlink n)
      (if (t.unlink n).isLeaf p = true ∧ ((t.unlink n).node p).refCount = 0
        then p :: heap.erase n else heap.erase n) := by
  obtain ⟨hnl, -, -⟩ := (hh.mem_iff n).mp hn
  have href : ∀ m, ((t.unlink n).node m).refCount = (t.node m).refCount :=
    fun m => modify_field t n m Node.refCount fun _ => rfl
  have hparent : ∀ m, ((t.unlink n).node m).parent = (t.node m).parent :=
    fun m => modify_field t n m Node.parent fun _ => rfl
  have hlinked : ∀ m, ((t.unlink n).node m).linked = true ↔ m ≠ n ∧ (t.node m).linked = true := by
    intro m
    rw [unlink_node]
    split
    · rename_i hm
      simp [hm]
    · rename_i hm
      simp [hm]
  -- only the parent can have become a leaf
  have hleaf : ∀ m, m ≠ p → ((t.unlink n).isLeaf m = true ↔ t.isLeaf m = true) := by
    intro m hmp
    rw [isLeaf_iff, isLeaf_iff]
    constructor
    · intro h d hd hdl hdp
      by_cases hdn : d = n
      · rw [hdn, hp, Option.some.injEq] at hdp
        exact hmp hdp.symm
      · exact h d hd ((hlinked d).mpr ⟨hdn, hdl⟩) ((hparent d).trans hdp)
    · intro h d hd hdl hdp
      exact h d hd ((hlinked d).mp hdl).2 ((hparent d).symm.trans hdp)
  have hpn : p ≠ n := by
    rintro rfl
    exact hw.parent_ne_self p hp
  have hpheap : p ∉ heap.erase n := by
    intro hm
    have hpl := ((hh.mem_iff p).mp (List.mem_of_mem_erase hm)).2.1
    exact isLeaf_iff.mp hpl n (hw.linked_lt hnl) hnl hp
  have hold : ∀ m, m ≠ p → (m ∈ heap.erase n ↔ ((t.unlink n).node m).linked = true ∧
      (t.unlink n).isLeaf m = true ∧ ((t.unlink n).node m).refCount = 0) := by
    intro m hmp
    rw [List.Nodup.mem_erase_iff hh.nodup, hh.mem_iff, href, hleaf m hmp, hlinked]
    exact and_assoc.symm
  constructor
  · split
    · exact List.nodup_cons.mpr ⟨hpheap, hh.nodup.erase n⟩
    · exact hh.nodup.erase n
  intro m
  by_cases hmp : m = p
  · subst hmp
    split
    · rename_i hcond
      refine ⟨fun _ => ⟨(hlinked m).mpr ⟨hpn, ?_⟩, hcond⟩, fun _ => List.mem_cons_self⟩
      obtain ⟨q, hq, hqt⟩ := hw.linked_parent n hnl
      obtain rfl : q = m := Option.some.inj (hq.symm.trans hp)
      refine hqt.resolve_left fun hr => hroot ?_
      rw [← hr, ← href]
      exact hcond.2
    · rename_i hcond
      exact ⟨fun hm => absurd hm hpheap, fun hm => absurd hm.2 hcond⟩
  · rw [← hold m hmp]
    split
    · rw [List.mem_cons, or_iff_right hmp]
    · rfl

theorem leafHeap_collect (hw : c.Wf) (hroot : (c.node root).refCount ≠ 0) :
    LeafHeap c.toRadixTree c.collectLeaveNodesForEvict := by
  refine ⟨List.nodup_range.filter _, fun m => ?_⟩
  rw [collectLeaveNodesForEvict, List.mem_filter, List.mem_range, Bool.and_eq_true,
    Bool.and_eq_true, Bool.or_eq_true, beq_iff_eq, beq_iff_eq]
  constructor
  · rintro ⟨-, ⟨hl, hleaf⟩, h0⟩
    refine ⟨hl.resolve_left ?_, hleaf, h0⟩
    rintro rfl
    exact hroot h0
  · rintro ⟨hl, hleaf, h0⟩
    exact ⟨hw.linked_lt hl, ⟨.inr hl, hleaf⟩, h0⟩

/-- What holds of the cache whose handles on `held` are locked. -/
structure PrefixInv (c : RadixPrefixCache) (held : List NodeId) : Prop where
  wf : c.Wf
  plain : Plain c.toRadixTree
  refs : RefInv c.toRadixTree held
  inTree : ∀ k ∈ held, c.InTree k
  sized : c.Sized

theorem prefixInv_empty {ps : Nat} (hps : 0 < ps) : PrefixInv (empty ps) [] :=
  ⟨wf_empty hps, plain_empty ps, .empty ps, fun _ hk => absurd hk List.not_mem_nil, sized_empty ps⟩

theorem PrefixInv.takeLeaf (h : PrefixInv e.cache held) (hn : (e.cache.node n).linked = true)
    (hleaf : e.cache.isLeaf n = true) (href : (e.cache.node n).refCount = 0) :
    PrefixInv (takeLeaf e n).cache held where
  wf := h.wf.unlink hleaf (h.plain.mambaValue n)
  plain := h.plain.unlink n
  refs := h.refs.unlink n
  inTree := fun k hk => by
    refine (h.inTree k hk).imp_right fun hl => ?_
    show ((e.cache.unlink n).node k).linked = true
    rw [unlink_node, if_neg]
    · exact hl
    · -- a lock on `n` would be counted
      rintro rfl
      have := h.refs.refCount_pos h.wf hk
        (h.wf.mem_rootPath_self (h.wf.linked_lt hn) (h.wf.linked_ne_root hn))
      omega
  sized := h.sized.takeLeaf h.wf hn href

/-- The locks that are held, on nodes of the tree. -/
theorem locked_walkKeeps (held : List NodeId) :
    WalkKeeps fun t => RefInv t held ∧ ∀ k ∈ held, t.InTree k where
  annotate := fun t n _ _ hf h =>
    ⟨h.1.congr (.annotate hf t n) fun m => modify_field t n m Node.refCount hf.refCount,
      fun k hk => ((SameShape.annotate hf t n).inTree_iff k).mpr (h.2 k hk)⟩
  split := fun t n pos hw hok h =>
    ⟨h.1.splitAt hw hok, fun k hk => (h.2 k hk).imp_right fun hl =>
      (splitAt_linked t n pos (Nat.ne_of_lt (hw.linked_lt hok.linked)) k).mpr (.inr hl)⟩

theorem PrefixInv.walk (h : PrefixInv c held) (inputIds : List Token) (tic : Time) :
    PrefixInv { c with toRadixTree := (c.walk inputIds tic).1 } held := by
  obtain ⟨hrefs, htree⟩ :=
    (locked_walkKeeps held).walk h.wf ⟨h.refs, h.inTree⟩ inputIds tic
  exact ⟨walk_wf inputIds tic h.wf, plain_walkKeeps.walk h.wf h.plain inputIds tic, hrefs, htree,
    h.sized.walk h.wf inputIds tic⟩

theorem PrefixInv.addLeaf (h : PrefixInv c held) {p : NodeId} {key : List Token}
    {value : List KvIndex} (now : Time) (hok : c.LeafOk p key value) :
    PrefixInv { c with
      toRadixTree := (c.toRadixTree.addLeaf p key value now).1
      evictableSize := c.evictableSize + key.length } held where
  wf := h.wf.addLeaf hok
  plain := h.plain.addLeaf h.wf p key value now
  refs := h.refs.addLeaf h.wf hok
  inTree := fun k hk => (h.inTree k hk).imp_right fun hl => by
    show ((c.toRadixTree.addLeaf p key value now).1.node k).linked = true
    rw [addLeaf_old _ p k key value now (Nat.ne_of_lt (h.refs.lt k hk))]
    exact hl
  sized := h.sized.addLeaf p key value now

theorem PrefixInv.lock (h : PrefixInv c held) {handle : RadixCacheHandle}
    (hn : c.InTree handle.node) (hlock : c.lockHandle handle false = some c') :
    PrefixInv c' (handle.node :: held) := by
  have hc := counted_lock hlock
  refine ⟨hc.wf h.wf, h.plain.counted hc,
    h.refs.inc h.wf (h.wf.inTree_lt hn) hc.toSameShape hc.refCount, fun k hk => ?_,
    h.sized.lockHandle h.wf hn hlock⟩
  rw [hc.inTree_iff]
  rcases List.mem_cons.mp hk with rfl | hk
  · exact hn
  · exact h.inTree k hk

theorem PrefixInv.unlock {handle : RadixCacheHandle} (h : PrefixInv c (handle.node :: held))
    (hun : c.lockHandle handle true = some c') : PrefixInv c' held := by
  have hc := counted_unlock hun
  refine ⟨hc.wf_symm h.wf, ⟨fun m => ?_, ?_⟩,
    h.refs.dec h.wf hc.toSameShape fun m => by rw [hc.refCount, hc.rootPath_eq], fun k hk => ?_,
    h.sized.lockHandle h.wf (h.inTree _ List.mem_cons_self) hun⟩
  · rw [← hc.mambaValue]
    exact h.plain.mambaValue m
  · -- the root is on no path
    have hroot := hc.refCount root
    rw [List.count_eq_zero_of_not_mem fun hm => (h.wf.mem_rootPath_lt hm).2 rfl, Nat.add_zero] at hroot
    rw [← hroot]
    exact h.plain.root
  · rw [← hc.inTree_iff]
    exact h.inTree k (List.mem_cons_of_mem _ hk)

theorem PrefixInv.perm {held' : List NodeId} (h : PrefixInv c held) (hp : held'.Perm held) :
    PrefixInv c held' :=
  ⟨h.wf, h.plain, h.refs.perm hp, fun k hk => h.inTree k (hp.mem_iff.mp hk), h.sized⟩

/-- The moves of `evict` keep `P`. -/
def EvictKeeps (held : List NodeId) (P : PrefixEvicting → Prop) : Prop :=
  ∀ e n, PrefixInv e.cache held → (e.cache.node n).linked = true → e.cache.isLeaf n = true →
    (e.cache.node n).refCount = 0 → P e → P (RadixPrefixCache.takeLeaf e n)

theorem Sized.evictable (h : c.Sized) :
    c.evictableSize = c.total fun x => if x.refCount = 0 then (x.length : ℤ) else 0 := by
  have happ := map_total (AddMonoidHom.fst ℤ ℤ) c.toRadixTree Node.sizes
  rw [← h] at happ
  refine happ.trans (congrArg (fun w => c.total w) (funext fun x => ?_))
  rw [Node.sizes]
  split
  · rfl
  · rfl

theorem Sized.protected (h : c.Sized) :
    c.protectedSize = c.total fun x => if x.refCount = 0 then 0 else (x.length : ℤ) := by
  have happ := map_total (AddMonoidHom.snd ℤ ℤ) c.toRadixTree Node.sizes
  rw [← h] at happ
  refine happ.trans (congrArg (fun w => c.total w) (funext fun x => ?_))
  rw [Node.sizes]
  split
  · rfl
  · rfl

/-- Something to evict means an unlocked leaf. -/
theorem exists_leaf (h : PrefixInv c held) (hpos : 0 < c.evictableSize) :
    ∃ m, (c.node m).linked = true ∧ c.isLeaf m = true ∧ (c.node m).refCount = 0 := by
  by_contra hno
  have hlocked := fun m => h.refs.locked_of_no_leaf (n := m) h.wf fun m hm => hno ⟨m, hm⟩
  have hzero : c.evictableSize = 0 := by
    refine h.sized.evictable.trans (tally_eq_zero fun m _ => ?_)
    rw [Node.weight]
    split
    · rename_i hl
      exact if_neg (hlocked m hl)
    · rfl
  omega

/-- The loop of `evict` ends with enough, its assertions met on the way. -/
theorem evictLoop_spec {P : PrefixEvicting → Prop} (hP : EvictKeeps held P) (size : Nat)
    (ties : Nat → Nat) {fuel : Nat} {heap : List NodeId} (h : PrefixInv e.cache held)
    (hh : LeafHeap e.cache.toRadixTree heap) (hsize : size ≤ e.evictedSize + e.cache.evictableSize)
    (hfuel : e.cache.linkedCount ≤ fuel) (he : P e) :
    ∃ e', evictLoop size ties fuel e heap = some e' ∧ size ≤ e'.evictedSize ∧
      PrefixInv e'.cache held ∧ P e' := by
  induction fuel generalizing e heap with
  | zero =>
    rw [evictLoop]
    split
    · rename_i hdone
      exact ⟨e, rfl, hdone, h, he⟩
    · rename_i hmore
      obtain ⟨m, hm, -⟩ := exists_leaf h (by omega)
      have hone := linkedCount_unlink h.wf hm
      omega
  | succ fuel ih =>
    rw [evictLoop]
    split
    · rename_i hdone
      exact ⟨e, rfl, hdone, h, he⟩
    rename_i hmore
    obtain ⟨m, hm⟩ := exists_leaf h (by omega)
    have hne : e.cache.popOldest (ties fuel) heap ≠ none :=
      popOldest_ne_none ((hh.mem_iff m).mpr hm)
    obtain ⟨n, hpop⟩ := Option.ne_none_iff_exists'.mp hne
    have hmem := popOldest_mem hpop
    obtain ⟨hnl, hnleaf, href⟩ := (hh.mem_iff n).mp hmem
    obtain ⟨p, hp, -⟩ := h.wf.linked_parent n hnl
    have hcount := linkedCount_unlink h.wf hnl
    rw [hpop, Option.bind_some, if_neg (by simp [href, hnleaf, h.wf.linked_ne_root hnl]), hp,
      Option.bind_some]
    refine ih (h.takeLeaf hnl hnleaf href) (hh.unlink h.wf h.plain.root hmem hp) ?_ ?_
      (hP e n h hnl hnleaf href he)
    · show (size : ℤ) ≤ ((e.evictedSize + (e.cache.node n).length : ℕ) : ℤ) +
        (e.cache.evictableSize - (e.cache.node n).length)
      omega
    · show (e.cache.unlink n).linkedCount ≤ fuel
      omega

/-- `evict` of no more than there is meets its assertions. -/
theorem evict_spec {P : PrefixEvicting → Prop} (hP : EvictKeeps held P) {size : Nat}
    (ties : Nat → Nat) (h : PrefixInv c held) (hsize : size ≤ c.evictableSize) (hc : P ⟨c, [], 0⟩) :
    ∃ e, c.evict size ties = some (e.cache, e.evictedIndices) ∧ size ≤ e.evictedSize ∧
      PrefixInv e.cache held ∧ P e := by
  rw [evict]
  split
  · rename_i hzero
    exact ⟨⟨c, [], 0⟩, rfl, hzero.le, h, hc⟩
  rw [if_neg (not_lt.mpr hsize)]
  obtain ⟨e, he, hmore, hinv, hp⟩ := evictLoop_spec hP size ties (e := ⟨c, [], 0⟩) h
    (leafHeap_collect h.wf h.plain.root) (by simpa using hsize) (linkedCount_le c.toRadixTree) hc
  exact ⟨e, by rw [he]; rfl, hmore, hinv, hp⟩

end RadixPrefixCache

end FreeToken.KvCache
