import FreeToken.KvCache.LockCounts

/-!
# What outstanding locks protect

Locks on nodes of the tree, and only those. Whatever order locks and snapshots
came in, a node's snapshot references never outnumber the locks on it, and only a
node with a snapshot has any: an eviction, which takes nodes without references,
takes no locked node and no referenced snapshot.

## Results

* `Protected.walkKeeps`, `Protected.insertKeeps`, `Protected.evictionKeeps` — matches, inserts
  and evictions keep it;
* `Protected.incLock`, `Protected.decLock` — so do taking and ending a lock.
-/

namespace FreeToken.KvCache

open FreeToken.Lib RadixTree

structure Protected (t : RadixTree) (held : List NodeId) : Prop extends RefInv t held where
  inTree : ∀ k ∈ held, t.InTree k
  mambaRefs : ∀ n, (t.node n).mambaRefCount ≤ held.count n
  live : ∀ n, 0 < (t.node n).mambaRefCount → (t.node n).mambaValue ≠ none

namespace Protected

variable {t t' : RadixTree} {held : List NodeId} {n : NodeId}

theorem empty (ps : Nat) : Protected (.empty ps) [] where
  toRefInv := .empty ps
  inTree := fun _ hk => absurd hk List.not_mem_nil
  mambaRefs := fun n => by rw [empty_node]; split <;> simp
  live := fun n hn => by
    rw [empty_node] at hn
    split at hn <;> simp at hn

theorem congr (h : Protected t held) (hs : SameShape t t')
    (href : ∀ m, (t'.node m).refCount = (t.node m).refCount)
    (hmref : ∀ m, (t'.node m).mambaRefCount = (t.node m).mambaRefCount)
    (hlive : ∀ m, 0 < (t.node m).mambaRefCount → (t.node m).mambaValue ≠ none →
      (t'.node m).mambaValue ≠ none) : Protected t' held where
  toRefInv := h.toRefInv.congr hs href
  inTree := fun k hk => (hs.inTree_iff k).mpr (h.inTree k hk)
  mambaRefs := fun m => by rw [hmref]; exact h.mambaRefs m
  live := fun m hm => by
    rw [hmref] at hm
    exact hlive m hm (h.live m hm)

theorem perm {held' : List NodeId} (h : Protected t held) (hp : held'.Perm held) :
    Protected t held' where
  toRefInv := h.toRefInv.perm hp
  inTree := fun k hk => h.inTree k (hp.mem_iff.mp hk)
  mambaRefs := fun m => by rw [hp.count_eq]; exact h.mambaRefs m
  live := h.live

/-- The locks on a node are among those at or below it. -/
theorem count_le_refCount (h : Protected t held) (hw : t.Wf) (hn : n < t.next) (hr : n ≠ root) :
    held.count n ≤ (t.node n).refCount := by
  rw [h.refs n hn hr, List.count]
  refine List.countP_mono_left fun k _ hk => ?_
  rw [beq_iff_eq] at hk
  rw [hk, decide_eq_true_iff]
  exact hw.mem_rootPath_self hn hr

theorem mambaRefCount_le (h : Protected t held) (hw : t.Wf) (hn : n < t.next) :
    (t.node n).mambaRefCount ≤ (t.node n).refCount := by
  by_cases hr : n = root
  · have hnone : (t.node n).mambaValue = none := by
      cases hv : (t.node n).mambaValue with
      | none => rfl
      | some s => exact absurd (hr ▸ hw.snapshot_linked n s hv) hw.root_not_linked
    have hlive := h.live n
    rw [hnone] at hlive
    have : ¬ 0 < (t.node n).mambaRefCount := fun hpos => hlive hpos rfl
    omega
  · exact (h.mambaRefs n).trans (h.count_le_refCount hw hn hr)

/-- A node nobody locks has no snapshot reference. -/
theorem unreferenced (h : Protected t held) (hw : t.Wf) (hn : (t.node n).linked = true)
    (href : (t.node n).refCount = 0) : (t.node n).mambaRefCount = 0 := by
  have := h.mambaRefCount_le hw (hw.linked_lt hn)
  omega

-- ---------------------------------------------------------------------------
-- Walks and inserts
-- ---------------------------------------------------------------------------

theorem splitAt (h : Protected t held) (hw : t.Wf) {pos : Nat} (hok : t.SplitOk n pos) :
    Protected (t.splitAt n pos).1 held := by
  have hn : n ≠ t.next := Nat.ne_of_lt (hw.linked_lt hok.linked)
  have hcount : ∀ m, ((t.splitAt n pos).1.node m).mambaRefCount =
      if m = t.next then 0 else (t.node m).mambaRefCount := by
    intro m
    by_cases hs : m = t.next
    · rw [hs, splitAt_prefixLen, if_pos rfl]
    · rw [if_neg hs]
      by_cases hmn : m = n
      · rw [hmn, splitAt_suffix t n pos hn]
      · rw [splitAt_old t n m pos hmn hs]
  refine ⟨h.toRefInv.splitAt hw hok, fun k hk => ?_, fun m => ?_, fun m hm => ?_⟩
  · refine (h.inTree k hk).imp_right fun hl => ?_
    exact (splitAt_linked t n pos hn k).mpr (.inr hl)
  · rw [hcount]
    split
    · omega
    · exact h.mambaRefs m
  · rw [hcount] at hm
    rw [splitAt_mambaValue t n pos hn]
    split at hm
    · omega
    · rename_i hs
      rw [if_neg hs]
      exact h.live m hm

theorem addLeaf (h : Protected t held) (hw : t.Wf) {p : NodeId} {key : List Token}
    {value : List KvIndex} {now : Time} (hok : t.LeafOk p key value) :
    Protected (t.addLeaf p key value now).1 held := by
  refine ⟨h.toRefInv.addLeaf hw hok, fun k hk => ?_, fun m => ?_, fun m hm => ?_⟩
  · refine (h.inTree k hk).imp_right fun hl => ?_
    rw [addLeaf_old t p k key value now (Nat.ne_of_lt (h.lt k hk))]
    exact hl
  · by_cases hs : m = t.next
    · rw [hs, addLeaf_new]
      exact Nat.zero_le _
    · rw [addLeaf_old t p m key value now hs]
      exact h.mambaRefs m
  · by_cases hs : m = t.next
    · rw [hs, addLeaf_new] at hm
      exact absurd hm (Nat.lt_irrefl 0)
    · rw [addLeaf_old t p m key value now hs] at hm ⊢
      exact h.live m hm

theorem walkKeeps (held : List NodeId) : WalkKeeps fun t => Protected t held where
  annotate := fun t n f _ hf h => h.congr (.annotate hf t n)
    (fun m => modify_field t n m Node.refCount hf.refCount)
    (fun m => modify_field t n m Node.mambaRefCount hf.mambaRefCount)
    fun m _ hm => by rwa [modify_field t n m Node.mambaValue hf.mambaValue]
  split := fun _ _ _ hw hok h => h.splitAt hw hok

theorem insertKeeps (held : List NodeId) (kvIndices : List KvIndex) (slot : Slot) :
    InsertKeeps kvIndices slot fun t => Protected t held where
  toWalkKeeps := walkKeeps held
  leaf := fun _ _ _ _ _ hw hok _ h => h.addLeaf hw hok
  attach := fun t n kind sums _ _ _ _ h => by
    refine h.congr (.attach t n slot kind sums)
      (fun m => modify_field t n m Node.refCount fun _ => rfl)
      (fun m => modify_field t n m Node.mambaRefCount fun _ => rfl) fun m _ hm => ?_
    rw [attach_mambaValue]
    split
    · nofun
    · exact hm

-- ---------------------------------------------------------------------------
-- Evictions
-- ---------------------------------------------------------------------------

open HybridRadixCache

theorem freeNodeMamba {c : HybridRadixCache} (h : Protected c.toRadixTree held)
    (hn : (c.node n).mambaRefCount = 0) (out : List Slot) :
    Protected (c.freeNodeMamba n out).1.toRadixTree held := by
  refine h.congr (freeNodeMamba_sameShape c n out) (fun m => (freeNodeMamba_counts c n m out).1)
    (fun m => (freeNodeMamba_counts c n m out).2) fun m hm hv => ?_
  rw [freeNodeMamba_mambaValue, if_neg]
  · exact hv
  · rintro rfl
    omega

theorem unlink (h : Protected t held) (hw : t.Wf) (hn : (t.node n).linked = true)
    (href : (t.node n).refCount = 0) : Protected (t.unlink n) held := by
  have hmod : ∀ {β : Type} (g : Node → β), (∀ x : Node, g { x with linked := false } = g x) →
      ∀ m, g ((t.unlink n).node m) = g (t.node m) := fun g hg m => modify_field t n m g hg
  refine ⟨h.toRefInv.unlink n, fun k hk => ?_, fun m => ?_, fun m hm => ?_⟩
  · refine (h.inTree k hk).imp_right fun hl => ?_
    rw [unlink_node, if_neg]
    · exact hl
    · -- a lock on `n` would be counted
      rintro rfl
      have := h.refCount_pos hw hk
        (hw.mem_rootPath_self (hw.linked_lt hn) (hw.linked_ne_root hn))
      omega
  · rw [hmod Node.mambaRefCount fun _ => rfl]
    exact h.mambaRefs m
  · rw [hmod Node.mambaRefCount fun _ => rfl] at hm
    rw [hmod Node.mambaValue fun _ => rfl]
    exact h.live m hm

theorem dropLeaf {e : Evicting} (h : Protected e.cache.toRadixTree held) (hw : e.cache.Wf)
    (hn : (e.cache.node n).linked = true) (href : (e.cache.node n).refCount = 0) :
    Protected (dropLeaf e n).cache.toRadixTree held := by
  have hfree := h.freeNodeMamba (h.unreferenced hw hn href) e.mambaSlots
  rw [dropLeaf_tree]
  refine hfree.unlink (freeNodeMamba_wf hw n e.mambaSlots) ?_ ?_
  · rw [(freeNodeMamba_sameShape e.cache n e.mambaSlots).linked]
    exact hn
  · rw [(freeNodeMamba_counts e.cache n n e.mambaSlots).1]
    exact href

theorem evictionKeeps (held : List NodeId) :
    EvictionKeeps fun e => Protected e.cache.toRadixTree held where
  drop := fun _ _ hw hn _ href h => h.dropLeaf hw hn href
  free := fun _ _ _ _ _ href h => h.freeNodeMamba href _
  freed := fun _ _ h => h

-- ---------------------------------------------------------------------------
-- Taking and ending a lock
-- ---------------------------------------------------------------------------

variable {c c' : HybridRadixCache}

theorem incLock (h : Protected c.toRadixTree held) (hw : c.Wf) (hn : c.InTree n) :
    Protected (c.incLock n).toRadixTree (n :: held) := by
  have hc := LockInv.counted_incLock c n
  refine ⟨h.toRefInv.inc hw (hw.inTree_lt hn) hc.toSameShape hc.refCount, fun k hk => ?_,
    fun m => ?_, fun m hm => ?_⟩
  · rw [hc.inTree_iff]
    rcases List.mem_cons.mp hk with rfl | hk
    · exact hn
    · exact h.inTree k hk
  · rw [hc.mambaRefCount, LockInv.count_cons_at1]
    have hle := h.mambaRefs m
    split
    · omega
    · omega
  · rw [hc.mambaRefCount] at hm
    rw [hc.mambaValue]
    by_cases hpos : 0 < (c.node m).mambaRefCount
    · exact h.live m hpos
    · split at hm
      · rename_i hs
        rw [LockInv.at1] at hm
        split at hm
        · rename_i hmn
          rw [hmn]
          exact Option.isSome_iff_ne_none.mp hs
        · omega
      · omega

theorem decLock (h : Protected c.toRadixTree (n :: held)) (hw : c.Wf)
    (hdec : c.decLock n = some c') : Protected c'.toRadixTree held := by
  have hc := LockInv.counted_decLock hdec
  refine ⟨h.toRefInv.dec hw hc.toSameShape fun m => ?_, fun k hk => ?_, fun m => ?_, fun m hm => ?_⟩
  · rw [hc.refCount, hc.rootPath_eq]
  · rw [← hc.inTree_iff]
    exact h.inTree k (List.mem_cons_of_mem _ hk)
  · have hle := h.mambaRefs m
    rw [LockInv.count_cons_at1, hc.mambaRefCount] at hle
    by_cases hmn : m = n
    · subst hmn
      rw [LockInv.at1, if_pos rfl] at hle
      -- a referenced snapshot is live, so the lock gives one reference back
      by_cases hg : c.givesBack m = true
      · rw [if_pos hg] at hle
        omega
      · have hzero : (c'.node m).mambaRefCount = 0 := by
          have heq := hc.mambaRefCount m
          rw [if_neg hg, Nat.add_zero] at heq
          by_contra hne
          have hpos : 0 < (c.node m).mambaRefCount := by omega
          refine hg ?_
          rw [givesBack, decide_eq_true hpos, Bool.and_true]
          exact Option.isSome_iff_ne_none.mpr (h.live m hpos)
        omega
    · rw [LockInv.at1, if_neg hmn] at hle
      omega
  · rw [← hc.mambaValue]
    refine h.live m ?_
    rw [hc.mambaRefCount]
    omega

end Protected

end FreeToken.KvCache
