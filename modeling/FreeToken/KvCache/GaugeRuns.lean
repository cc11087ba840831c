import FreeToken.KvCache.EvictionYield
import FreeToken.KvCache.SnapshotLock

/-!
# What the gauges promise

Runs of the hybrid cache in which the caller keeps its side: it locks nodes that
are in the tree (what a match or an insert just gave it) and donates pages that
are its own. In every state of such a run the gauges are the totals they stand
for, and the evictions deliver what the gauges promise.

The root's count is 1 throughout and no lock adds to it, so counts fall towards
the leaves from the root's children on.

## Results

* `gauges_deliver` — the gauges, the counts and both evictions, in every such state;
* `root_count_fixed` — two locks on one node: its count exceeds the root's.
-/

namespace FreeToken.KvCache

open FreeToken.Lib RadixTree

namespace HybridRadixCache

/-- The pages an insert would put in a new leaf. -/
def newPages (c : HybridRadixCache) (inputIds : List Token) (kvIndices : List KvIndex)
    (tic : Time) : List KvIndex :=
  let insertLen := alignDown inputIds.length c.pageSize
  (kvIndices.take insertLen).drop (c.walk (inputIds.take insertLen) tic).2.2

/-- The pages are distinct and none is in the tree. -/
def FreshPages (c : HybridRadixCache) (pages : List KvIndex) : Prop :=
  pages.Nodup ∧ ∀ n < c.next, (c.node n).linked = true → ∀ pg ∈ (c.node n).value, pg ∉ pages

instance (c : HybridRadixCache) (pages : List KvIndex) : Decidable (c.FreshPages pages) :=
  inferInstanceAs (Decidable (_ ∧ _))

/-- The gauges are what they stand for, and the evictions deliver it. -/
structure Delivers (c : HybridRadixCache) : Prop where
  fullEvictable : c.fullEvictable = c.total fun x => if x.refCount = 0 then (x.length : ℤ) else 0
  fullProtected : c.fullProtected = c.total fun x => if x.refCount = 0 then 0 else (x.length : ℤ)
  mambaEvictable : c.mambaEvictable =
    c.total fun x => if x.mambaValue.isSome ∧ x.mambaRefCount = 0 then 1 else 0
  mambaProtected : c.mambaProtected =
    c.total fun x => if x.mambaValue.isSome ∧ x.mambaRefCount ≠ 0 then 1 else 0
  mambaRefCount_le : ∀ n < c.next, (c.node n).mambaRefCount ≤ (c.node n).refCount
  refCount_le_parent : ∀ n p, (c.node n).linked = true → (c.node n).parent = some p → p ≠ root →
    (c.node n).refCount ≤ (c.node p).refCount
  evictMamba : ∀ num, Yields c (c.evictMamba num) ∧
    ((c.evictMamba num).mambaSlots.length : ℤ) = min (num : ℤ) c.mambaEvictable
  evictFull : ∀ numTokens ties, Yields c (c.evictFull numTokens ties) ∧
    min (numTokens : ℤ) c.fullEvictable ≤ (c.evictFull numTokens ties).kvIndices.length

variable {c c' : HybridRadixCache} {held : List NodeId}

/-- A gauge is the total of its share of the nodes. -/
theorem Gauged.total (h : c.Gauged) (g : Gauge) : c.gauge g = c.total fun x => x.gauge g := by
  have happ := map_total (Pi.evalAddMonoidHom (fun _ : Gauge => ℤ) g) c.toRadixTree Node.gauge
  exact (congrFun h g).trans happ

theorem delivers (hw : c.Wf) (hp : Protected c.toRadixTree held) (hg : c.Gauged)
    (hnd : (c.total Node.pages).Nodup) : c.Delivers where
  fullEvictable := hg.total .fullEvictable
  fullProtected := hg.total .fullProtected
  mambaEvictable := hg.total .mambaEvictable
  mambaProtected := hg.total .mambaProtected
  mambaRefCount_le := fun _ hn => hp.mambaRefCount_le hw hn
  refCount_le_parent := fun _ _ hl hpar hroot =>
    hp.toRefInv.refCount_le_parent hw hpar hroot (hw.linked_ne_root hl)
  evictMamba := fun num => ⟨.evictMamba hw hp hnd num, evictMamba_count hw hg num⟩
  evictFull := fun numTokens ties =>
    ⟨.evictFull hw hp hnd numTokens ties, evictFull_tokens hw hp hg numTokens ties⟩

-- ---------------------------------------------------------------------------
-- The pages of the tree
-- ---------------------------------------------------------------------------

theorem total_pages_of_sameShape {t t' : RadixTree} (hs : SameShape t t') :
    t'.total Node.pages = t.total Node.pages :=
  total_congr hs.next fun m _ => by
    rw [Node.weight, Node.weight, hs.linked, Node.pages, Node.pages, hs.value]

theorem walkKeeps_pages (v : Multiset KvIndex) : WalkKeeps fun t => t.total Node.pages = v where
  annotate := fun t n f _ hf h => by
    rw [total_pages_of_sameShape (.annotate hf t n), h]
  split := fun t n pos hw hok h => by rw [total_splitAt hw hok divides_pages, h]

theorem total_pages_donate (c : HybridRadixCache) (n : NodeId) (slot : Slot) (sums : Option Nat)
    (kind : SnapshotKind) :
    (c.donate n slot sums kind).1.total Node.pages = c.total Node.pages := by
  rw [donate]
  split
  · rfl
  split
  · exact total_pages_of_sameShape (.annotate (annotates_note sums kind) _ n)
  · exact total_pages_of_sameShape (.attach c.toRadixTree n slot kind sums)

/-- An insert adds its new pages to the tree. -/
theorem total_pages_insert (hw : c.Wf) {inputIds : List Token} {kvIndices : List KvIndex}
    {slot : Slot} {sums : Option Nat} {kind : SnapshotKind} {tic now : Time} {r : Nat × Bool}
    (hins : c.insert inputIds kvIndices slot sums kind tic now = some (c', r)) :
    c'.total Node.pages = c.total Node.pages + (c.newPages inputIds kvIndices tic : Multiset KvIndex) := by
  simp only [HybridRadixCache.insert] at hins
  split at hins
  · cases hins
  obtain ⟨⟨d, node, len⟩, hext, hd⟩ := Option.map_eq_some_iff.mp hins
  cases hd
  rw [total_pages_donate, newPages]
  dsimp only
  have hlen : (inputIds.take (alignDown inputIds.length c.pageSize)).length =
      alignDown inputIds.length c.pageSize := by
    rw [List.length_take, Nat.min_eq_left (alignDown_le _ _)]
  have hwalk := (walkKeeps_pages _).walk hw rfl
    (inputIds.take (alignDown inputIds.length c.pageSize)) tic
  simp only [extendPath] at hext
  split at hext
  · rename_i hdone
    cases hext
    rw [hdone, hlen, List.drop_eq_nil_of_le (List.length_take_le _ _)]
    exact hwalk.trans (add_zero _).symm
  split at hext
  · cases hext
  · cases hext
    refine (total_addLeaf Node.pages _ _ _ now).trans ?_
    exact congrArg (· + _) hwalk

theorem nodup_pages_insert (hw : c.Wf) (hnd : (c.total Node.pages).Nodup) {inputIds : List Token}
    {kvIndices : List KvIndex} {slot : Slot} {sums : Option Nat} {kind : SnapshotKind}
    {tic now : Time} {r : Nat × Bool} (hfresh : c.FreshPages (c.newPages inputIds kvIndices tic))
    (hins : c.insert inputIds kvIndices slot sums kind tic now = some (c', r)) :
    (c'.total Node.pages).Nodup := by
  rw [total_pages_insert hw hins, Multiset.nodup_add]
  refine ⟨hnd, Multiset.coe_nodup.mpr hfresh.1, Multiset.disjoint_left.mpr ?_⟩
  intro pg hpg hnew
  obtain ⟨n, hl, hv⟩ := (mem_total hw).mp hpg
  exact hfresh.2 n (hw.linked_lt hl) hl pg hv hnew

end HybridRadixCache

namespace LockState

/-- The caller's side: it locks a node of the tree and donates pages of its own. -/
def CallerOk (s : LockState) : CacheOp → Prop
  | .incLock n => s.cache.InTree n
  | .insert inputIds kvIndices _ _ _ tic _ =>
    s.cache.FreshPages (s.cache.newPages inputIds kvIndices tic)
  | _ => True

instance (s : LockState) (a : CacheOp) : Decidable (s.CallerOk a) :=
  match a with
  | .incLock n => inferInstanceAs (Decidable (n = root ∨ (s.cache.node n).linked = true))
  | .insert inputIds kvIndices _ _ _ tic _ =>
    inferInstanceAs (Decidable (s.cache.FreshPages (s.cache.newPages inputIds kvIndices tic)))
  | .matchPrefix .. | .decLock _ | .evictFull .. | .evictMamba _ => inferInstanceAs (Decidable True)

/-- Locks are on nodes of the tree, and the gauges are the totals. -/
structure HeldInv (s : LockState) : Prop where
  wf : s.cache.Wf
  held : Protected s.cache.toRadixTree (s.locks.map Prod.fst)
  gauged : s.cache.Gauged

structure GaugeInv (s : LockState) : Prop extends HeldInv s where
  pages : (s.cache.total Node.pages).Nodup

theorem heldInv_init {ps : Nat} (hps : 0 < ps) : (init ps).HeldInv :=
  ⟨wf_empty hps, .empty ps, HybridRadixCache.gauged_empty ps⟩

theorem gaugeInv_init {ps : Nat} (hps : 0 < ps) : (init ps).GaugeInv :=
  ⟨heldInv_init hps, by
    rw [show (init ps).cache.total Node.pages = 0 from total_empty ps _]
    exact Multiset.nodup_zero⟩

/-- A lock is taken on a node of the tree. -/
def LockInTree (s : LockState) : CacheOp → Prop
  | .incLock n => s.cache.InTree n
  | _ => True

theorem CallerOk.lockInTree {s : LockState} {a : CacheOp} (h : s.CallerOk a) : s.LockInTree a := by
  cases a with
  | incLock n => exact h
  | _ => trivial

theorem HeldInv.step {s s' : LockState} {a : CacheOp} (h : s.HeldInv) (hok : s.LockInTree a)
    (hst : s.step a = some s') : s'.HeldInv := by
  cases a with
  | matchPrefix inputIds pooled tic =>
    cases hst
    exact ⟨walk_wf inputIds tic h.wf, (Protected.walkKeeps _).walk h.wf h.held inputIds tic,
      HybridRadixCache.gauged_walk h.gauged h.wf inputIds tic⟩
  | insert inputIds kvIndices slot sums kind tic now =>
    rw [LockState.step] at hst
    split at hst
    · cases hst
    rename_i ho
    obtain ⟨⟨c, r⟩, hins, hs'⟩ := Option.map_eq_some_iff.mp hst
    cases hs'
    have hslot := HybridRadixCache.slotFree_of_owns h.wf ho
    obtain ⟨hheld, hwf⟩ := HybridRadixCache.insert_induct
      (Protected.insertKeeps _ kvIndices slot) h.wf hslot hins h.held
    exact ⟨hwf, hheld, h.gauged.insert h.held h.wf hslot hins⟩
  | incLock n =>
    rw [LockState.step] at hst
    split at hst
    · cases hst
      have hc := LockInv.counted_incLock s.cache n
      exact ⟨hc.wf h.wf, h.held.incLock h.wf hok, h.gauged.incLock h.wf hok⟩
    · cases hst
  | decLock i =>
    obtain ⟨k, hk, hst⟩ := Option.bind_eq_some_iff.mp hst
    obtain ⟨c, hdec, hs'⟩ := Option.map_eq_some_iff.mp hst
    cases hs'
    have hc := LockInv.counted_decLock hdec
    obtain ⟨hi, hki⟩ := List.getElem?_eq_some_iff.mp hk
    -- the order of the locks does not matter, so `k` comes first
    have hperm : (k :: s.locks.eraseIdx i).Perm s.locks := by
      rw [← hki]
      exact List.getElem_cons_eraseIdx_perm hi
    have hheld := h.held.perm (hperm.map Prod.fst)
    have hmem : k.1 ∈ s.locks.map Prod.fst := List.mem_map_of_mem (List.mem_of_getElem? hk)
    exact ⟨hc.wf_symm h.wf, hheld.decLock h.wf hdec,
      h.gauged.decLock h.wf (h.held.inTree _ hmem) hdec⟩
  | evictFull numTokens ties =>
    cases hst
    obtain ⟨⟨hheld, hgauged⟩, hwf⟩ := HybridRadixCache.evictFull_induct
      (HybridRadixCache.Gauged.evictionKeeps _) numTokens ties h.wf ⟨h.held, h.gauged⟩
    exact ⟨hwf, hheld, hgauged⟩
  | evictMamba num =>
    cases hst
    obtain ⟨⟨hheld, hgauged⟩, hwf⟩ := HybridRadixCache.evictMamba_induct
      (HybridRadixCache.Gauged.evictionKeeps _) num h.wf ⟨h.held, h.gauged⟩
    exact ⟨hwf, hheld, hgauged⟩

/-- No page is in the tree twice. -/
theorem GaugeInv.step {s s' : LockState} {a : CacheOp} (h : s.GaugeInv) (hok : s.CallerOk a)
    (hst : s.step a = some s') : s'.GaugeInv := by
  refine ⟨h.toHeldInv.step hok.lockInTree hst, ?_⟩
  have evicted : ∀ e : Evicting, HybridRadixCache.Conserves s.cache e →
      (e.cache.total Node.pages).Nodup := fun e hc => by
    have hnd := h.pages
    rw [← hc.pages, Multiset.nodup_add] at hnd
    exact hnd.2.1
  cases a with
  | matchPrefix inputIds pooled tic =>
    cases hst
    have hsame := (HybridRadixCache.walkKeeps_pages _).walk h.wf rfl inputIds tic
    show ((s.cache.toRadixTree.walk inputIds tic).1.total Node.pages).Nodup
    rw [hsame]
    exact h.pages
  | insert inputIds kvIndices slot sums kind tic now =>
    rw [LockState.step] at hst
    split at hst
    · cases hst
    obtain ⟨⟨c, r⟩, hins, hs'⟩ := Option.map_eq_some_iff.mp hst
    cases hs'
    exact HybridRadixCache.nodup_pages_insert h.wf h.pages hok hins
  | incLock n =>
    rw [LockState.step] at hst
    split at hst
    · cases hst
      rw [HybridRadixCache.total_pages_of_sameShape (LockInv.counted_incLock s.cache n).toSameShape]
      exact h.pages
    · cases hst
  | decLock i =>
    obtain ⟨k, -, hst⟩ := Option.bind_eq_some_iff.mp hst
    obtain ⟨c, hdec, hs'⟩ := Option.map_eq_some_iff.mp hst
    cases hs'
    rw [← HybridRadixCache.total_pages_of_sameShape (LockInv.counted_decLock hdec).toSameShape]
    exact h.pages
  | evictFull numTokens ties =>
    cases hst
    exact evicted _ (HybridRadixCache.evictFull_induct
      (HybridRadixCache.conserves_keeps s.cache) numTokens ties h.wf
      (HybridRadixCache.conserves_refl s.cache)).1
  | evictMamba num =>
    cases hst
    exact evicted _ (HybridRadixCache.evictMamba_induct
      (HybridRadixCache.conserves_keeps s.cache) num h.wf
      (HybridRadixCache.conserves_refl s.cache)).1

/-- In every state of a run in which the caller keeps its side, the gauges are the
totals they stand for, counts fall towards the leaves below the root, and both
evictions return what the gauges promise, once, and nothing that is locked. -/
theorem gauges_deliver {ps : Nat} (hps : 0 < ps) {s : LockState}
    (hs : Reach step CallerOk (init ps) s) : s.cache.Delivers := by
  have h := hs.invariant (gaugeInv_init hps) fun _ _ _ hi hok hst => hi.step hok hst
  exact HybridRadixCache.delivers h.wf h.held h.gauged h.pages

/-- Two prompts that share their first page, one of them locked. -/
theorem shared_prefix_delivers :
    ∃ s, guardedRun step CallerOk (init 1)
        [.insert [1, 2] [10, 11] 7 none .chunk 1 1, .insert [1, 3] [10, 12] 8 none .chunk 2 2,
          .incLock 1] = some s ∧
      (s.cache.fullEvictable, s.cache.fullProtected, s.cache.mambaEvictable,
        s.cache.mambaProtected) = (1, 2, 1, 1) ∧ s.cache.Delivers := by
  have hrun : (guardedRun step CallerOk (init 1)
      [.insert [1, 2] [10, 11] 7 none .chunk 1 1, .insert [1, 3] [10, 12] 8 none .chunk 2 2,
        .incLock 1]).map (fun s => (s.cache.fullEvictable, s.cache.fullProtected,
          s.cache.mambaEvictable, s.cache.mambaProtected)) = some (1, 2, 1, 1) := by decide
  obtain ⟨s, hs, hgauges⟩ := Option.map_eq_some_iff.mp hrun
  exact ⟨s, hs, hgauges, gauges_deliver Nat.one_pos (reach_of_guardedRun _ hs)⟩

/-- Two locks on a node below the root: the node counts both, the root neither. -/
theorem root_count_fixed :
    ∃ s, Reach step CallerOk (init 1) s ∧ (s.cache.node 1).parent = some root ∧
      (s.cache.node 1).linked = true ∧ (s.cache.node root).refCount < (s.cache.node 1).refCount := by
  have hrun : (guardedRun step CallerOk (init 1)
      [.insert [1] [10] 7 none .chunk 1 1, .incLock 1, .incLock 1]).map
        (fun s => ((s.cache.node 1).parent, (s.cache.node 1).linked,
          (s.cache.node root).refCount, (s.cache.node 1).refCount)) =
      some (some root, true, 1, 2) := by decide
  obtain ⟨s, hs, hv⟩ := Option.map_eq_some_iff.mp hrun
  simp only [Prod.mk.injEq] at hv
  obtain ⟨hp, hl, hroot, hone⟩ := hv
  exact ⟨s, reach_of_guardedRun _ hs, hp, hl, by rw [hroot, hone]; decide⟩

end LockState

end FreeToken.KvCache
