import FreeToken.KvCache.Gauges
import Mathlib.Algebra.Group.Pi.Lemmas
import Mathlib.Algebra.Order.BigOperators.Group.Finset
import Mathlib.Data.List.MinMax

/-!
# What an eviction yields

Pages and slots are conserved: what an eviction returns has left the tree, each
entry once, and nothing of a locked node or a referenced snapshot is among it.
`evict_mamba` frees one candidate a round, and every candidate of its heap is
still one when its turn comes. The heap of `evict_full` is always all unlocked
leaves, so when it runs empty no unlocked node is left.

## Results

* `Yields.evictFull`, `Yields.evictMamba` — what is returned, once and from the evictable;
* `evictMamba_count` — `min(n, mamba_evictable)` snapshots;
* `evictFull_tokens` — at least `min(n, full_evictable)` tokens.
-/

namespace FreeToken.KvCache

open FreeToken.Lib RadixTree

def Node.pages (x : Node) : Multiset KvIndex := x.value

def Node.slots (x : Node) : Multiset Slot := x.mambaValue.toList

theorem divides_pages : Divides Node.pages := by
  intro x pos s
  show ((x.value.take pos : List KvIndex) : Multiset KvIndex) + (x.value.drop pos : List KvIndex) =
    (x.value : Multiset KvIndex)
  rw [Multiset.coe_add, List.take_append_drop]

namespace RadixTree

variable {α : Type*} {t : RadixTree} {w : Node → Multiset α} {a : α} {n : NodeId}

theorem mem_total (h : t.Wf) :
    a ∈ t.total w ↔ ∃ n, (t.node n).linked = true ∧ a ∈ w (t.node n) := by
  rw [total, mem_tally]
  constructor
  · rintro ⟨n, -, ha⟩
    rw [Node.weight] at ha
    split at ha
    · rename_i hl
      exact ⟨n, hl, ha⟩
    · exact absurd ha (Multiset.notMem_zero a)
  · rintro ⟨n, hl, ha⟩
    exact ⟨n, h.linked_lt hl, by rwa [Node.weight, if_pos hl]⟩

/-- A heap that is not empty has an oldest node. -/
theorem popOldest_ne_none {tie : Nat} {heap : List NodeId} (hn : n ∈ heap) :
    t.popOldest tie heap ≠ none := by
  obtain ⟨a, ha⟩ : ∃ a, a ∈ heap.argmin fun n => (t.node n).timestamp := by
    refine Option.ne_none_iff_exists'.mp fun hnone => ?_
    rw [List.argmin_eq_none] at hnone
    rw [hnone] at hn
    cases hn
  have hold : a ∈ heap.filter fun n => heap.all fun m => (t.node n).timestamp ≤ (t.node m).timestamp := by
    refine List.mem_filter.mpr ⟨List.argmin_mem ha, List.all_eq_true.mpr fun b hb => ?_⟩
    exact decide_eq_true (List.le_of_mem_argmin (f := fun n => (t.node n).timestamp) hb ha)
  have hpos := List.length_pos_of_mem hold
  rw [popOldest, Ne, List.getElem?_eq_none_iff, Nat.not_le]
  exact Nat.mod_lt _ hpos

/-- The linked nodes. -/
def linkedCount (t : RadixTree) : Nat := t.total fun _ => (1 : ℕ)

theorem linkedCount_unlink (h : t.Wf) (hn : (t.node n).linked = true) :
    (t.unlink n).linkedCount + 1 = t.linkedCount := total_unlink (fun _ => (1 : ℕ)) h hn

theorem linkedCount_le (t : RadixTree) : t.linkedCount ≤ t.next := by
  refine tally_le_of_le_one (fun n => ?_) t.next
  rw [Node.weight]
  split <;> omega

/-- No slot is on two nodes. -/
theorem Wf.nodup_slots (h : t.Wf) : (t.total Node.slots).Nodup := by
  refine nodup_tally (fun n _ => ?_) fun m _ n _ a ha hb => ?_
  · rw [Node.weight, Node.slots]
    split
    · cases (t.node n).mambaValue with
      | none => exact Multiset.nodup_zero
      | some s => exact Multiset.nodup_singleton s
    · exact Multiset.nodup_zero
  · have hsnap : ∀ k, a ∈ (t.node k).weight Node.slots → (t.node k).mambaValue = some a := by
      intro k hk
      rw [Node.weight] at hk
      split at hk
      · simpa [Node.slots] using hk
      · exact absurd hk (Multiset.notMem_zero a)
    exact h.snapshot_inj m n a (hsnap m ha) (hsnap n hb)

end RadixTree

namespace HybridRadixCache

variable {c : HybridRadixCache} {e : Evicting} {held : List NodeId} {n : NodeId}

-- ---------------------------------------------------------------------------
-- Conservation
-- ---------------------------------------------------------------------------

/-- Pages and slots, returned or in the tree, are those there were. -/
structure Conserves (c : HybridRadixCache) (e : Evicting) : Prop where
  pages : (e.kvIndices : Multiset KvIndex) + e.cache.total Node.pages = c.total Node.pages
  slots : (e.mambaSlots : Multiset Slot) + e.cache.total Node.slots = c.total Node.slots

theorem total_freeNodeMamba_slots (hw : c.Wf) (out : List Slot) :
    ((c.freeNodeMamba n out).2 : Multiset Slot) + (c.freeNodeMamba n out).1.total Node.slots =
      out + c.total Node.slots := by
  cases hs : (c.node n).mambaValue with
  | none => rw [freeNodeMamba_none hs]
  | some s =>
    have hl := hw.snapshot_linked n s hs
    obtain ⟨htree, hout⟩ := freeNodeMamba_some hs out
    have hmod := total_modify Node.slots (hw.linked_lt hl) fun x =>
      { x with snapshotKind := .chunk, mambaValue := none, pooledSums := none }
    rw [← htree, Node.weight, Node.weight, if_pos hl, if_pos hl] at hmod
    have hold : (c.node n).slots = {s} := by rw [Node.slots, hs]; rfl
    rw [hold] at hmod
    rw [hout, ← Multiset.coe_add, add_assoc]
    refine congrArg _ ((add_comm _ _).trans (hmod.trans ?_))
    exact add_zero _

theorem total_freeNodeMamba_pages (c : HybridRadixCache) (n : NodeId) (out : List Slot) :
    (c.freeNodeMamba n out).1.total Node.pages = c.total Node.pages := by
  have hs := freeNodeMamba_sameShape c n out
  refine total_congr hs.next fun m _ => ?_
  rw [Node.weight, Node.weight, hs.linked, Node.pages, Node.pages, hs.value]

theorem conserves_keeps (c : HybridRadixCache) : EvictionKeeps (Conserves c) where
  drop := by
    intro e n hw hn _ _ h
    have hs := freeNodeMamba_sameShape e.cache n e.mambaSlots
    have hwf := freeNodeMamba_wf hw n e.mambaSlots
    have hl : ((e.cache.freeNodeMamba n e.mambaSlots).1.node n).linked = true := by
      rw [hs.linked]
      exact hn
    constructor
    · have htot := total_unlink Node.pages hwf hl
      have hpages : ((e.cache.freeNodeMamba n e.mambaSlots).1.node n).pages =
          ((e.cache.node n).value : Multiset KvIndex) := by
        rw [Node.pages, hs.value]
      rw [hpages, total_freeNodeMamba_pages] at htot
      rw [← h.pages, ← htot, dropLeaf_tree]
      show ((e.kvIndices ++ (e.cache.node n).value : List KvIndex) : Multiset KvIndex) + _ = _
      rw [← Multiset.coe_add, add_assoc, add_comm (((e.cache.node n).value : Multiset KvIndex))]
    · have htot := total_unlink Node.slots hwf hl
      have hnone : ((e.cache.freeNodeMamba n e.mambaSlots).1.node n).slots = 0 := by
        rw [Node.slots, freeNodeMamba_mambaValue, if_pos rfl]
        rfl
      rw [hnone, add_zero] at htot
      rw [← h.slots, ← total_freeNodeMamba_slots hw e.mambaSlots, dropLeaf_tree, htot]
      rfl
  free := fun e n _ hw _ _ h =>
    ⟨by rw [← h.pages, total_freeNodeMamba_pages], (total_freeNodeMamba_slots hw _).trans h.slots⟩
  freed := fun _ _ h => ⟨h.pages, h.slots⟩

/-- Locked nodes stay with their pages, and referenced snapshots stay. -/
structure Spares (c : HybridRadixCache) (e : Evicting) : Prop where
  refCount : ∀ m, (e.cache.node m).refCount = (c.node m).refCount
  mambaRefCount : ∀ m, (e.cache.node m).mambaRefCount = (c.node m).mambaRefCount
  value : ∀ m, (e.cache.node m).value = (c.node m).value
  linked : ∀ m, (c.node m).linked = true → 0 < (c.node m).refCount →
    (e.cache.node m).linked = true
  snapshot : ∀ m, 0 < (c.node m).mambaRefCount →
    (e.cache.node m).mambaValue = (c.node m).mambaValue

theorem spares_keeps (c : HybridRadixCache) (held : List NodeId) : EvictionKeeps fun e =>
    Protected e.cache.toRadixTree held ∧ Spares c e where
  drop := by
    rintro e n hw hn - href ⟨hp, h⟩
    have hmref := hp.unreferenced hw hn href
    refine ⟨hp.dropLeaf hw hn href, fun m => ?_, fun m => ?_, fun m => ?_, fun m hl hm => ?_,
      fun m hm => ?_⟩
    · rw [dropLeaf_refCount, h.refCount]
    · rw [dropLeaf_mambaRefCount, h.mambaRefCount]
    · rw [dropLeaf_value, h.value]
    · refine (dropLeaf_linked e n m).mpr ⟨?_, h.linked m hl hm⟩
      rintro rfl
      rw [h.refCount] at href
      omega
    · rw [dropLeaf_mambaValue, if_neg]
      · exact h.snapshot m hm
      · rintro rfl
        rw [h.mambaRefCount] at hmref
        omega
  free := by
    rintro e n k hw - href ⟨hp, h⟩
    have hs := freeNodeMamba_sameShape e.cache n e.mambaSlots
    have hcounts := fun m => freeNodeMamba_counts e.cache n m e.mambaSlots
    refine ⟨hp.freeNodeMamba href _, fun m => (hcounts m).1.trans (h.refCount m),
      fun m => (hcounts m).2.trans (h.mambaRefCount m), fun m => (hs.value m).trans (h.value m),
      fun m hl hm => (hs.linked m).trans (h.linked m hl hm), fun m hm => ?_⟩
    rw [freeNodeMamba_mambaValue, if_neg]
    · exact h.snapshot m hm
    · rintro rfl
      rw [h.mambaRefCount] at href
      omega
  freed := fun _ _ ⟨hp, h⟩ => ⟨hp, h.1, h.2, h.3, h.4, h.5⟩

-- ---------------------------------------------------------------------------
-- What is returned
-- ---------------------------------------------------------------------------

/-- The moves an eviction makes: each `del` of a `children` entry finds the entry
of an unlocked leaf, and each freed snapshot is live and without a reference. -/
inductive EvictionMoves (e₀ : Evicting) : Evicting → Prop
  | refl : EvictionMoves e₀ e₀
  | drop {e : Evicting} (n : NodeId) (he : EvictionMoves e₀ e)
      (hn : (e.cache.node n).linked = true) (hleaf : e.cache.isLeaf n = true)
      (href : (e.cache.node n).refCount = 0) : EvictionMoves e₀ (dropLeaf e n)
  | free {e : Evicting} (n : NodeId) (k : Nat) (he : EvictionMoves e₀ e)
      (hlive : (e.cache.node n).mambaValue ≠ none) (href : (e.cache.node n).mambaRefCount = 0) :
      EvictionMoves e₀
        { cache := (e.cache.freeNodeMamba n e.mambaSlots).1, kvIndices := e.kvIndices,
          mambaSlots := (e.cache.freeNodeMamba n e.mambaSlots).2, freed := k }
  | freed {e : Evicting} (k : Nat) (he : EvictionMoves e₀ e) :
      EvictionMoves e₀ { e with freed := k }

theorem moves_keeps (e₀ : Evicting) : EvictionKeeps (EvictionMoves e₀) where
  drop := fun _ n _ hn hleaf href he => .drop n he hn hleaf href
  free := fun _ n k _ hlive href he => .free n k he hlive href
  freed := fun _ k he => .freed k he

/-- What an eviction of `c` returned, as `e`: each index and each slot once, and
none of a locked node or of a referenced snapshot. -/
structure Yields (c : HybridRadixCache) (e : Evicting) : Prop where
  moves : EvictionMoves ⟨c, [], [], 0⟩ e
  conserves : Conserves c e
  indices_once : e.kvIndices.Nodup
  slots_once : e.mambaSlots.Nodup
  locked : ∀ n, (c.node n).linked = true → 0 < (c.node n).refCount →
    ∀ pg ∈ (c.node n).value, pg ∉ e.kvIndices
  referenced : ∀ n s, (c.node n).mambaValue = some s → 0 < (c.node n).mambaRefCount →
    s ∉ e.mambaSlots

theorem yields_of (hw : c.Wf) (hnd : (c.total Node.pages).Nodup) (hwe : e.cache.Wf)
    (hm : EvictionMoves ⟨c, [], [], 0⟩ e) (hc : Conserves c e) (hs : Spares c e) : Yields c e := by
  rw [← hc.pages, Multiset.nodup_add] at hnd
  have hslots := hw.nodup_slots
  rw [← hc.slots, Multiset.nodup_add] at hslots
  refine ⟨hm, hc, Multiset.coe_nodup.mp hnd.1, Multiset.coe_nodup.mp hslots.1,
    fun n hl href pg hpg hret => ?_, fun n s hn href hret => ?_⟩
  · refine Multiset.disjoint_left.mp hnd.2.2 (Multiset.mem_coe.mpr hret) ((mem_total hwe).mpr ?_)
    refine ⟨n, hs.linked n hl href, ?_⟩
    rw [Node.pages, hs.value]
    exact hpg
  · have hlive := hs.snapshot n href
    rw [hn] at hlive
    refine Multiset.disjoint_left.mp hslots.2.2 (Multiset.mem_coe.mpr hret) ((mem_total hwe).mpr ?_)
    refine ⟨n, hwe.snapshot_linked n s hlive, ?_⟩
    rw [Node.slots, hlive]
    exact List.mem_singleton_self s

theorem spares_refl (c : HybridRadixCache) : Spares c ⟨c, [], [], 0⟩ :=
  ⟨fun _ => rfl, fun _ => rfl, fun _ => rfl, fun _ hl _ => hl, fun _ _ => rfl⟩

theorem conserves_refl (c : HybridRadixCache) : Conserves c ⟨c, [], [], 0⟩ :=
  ⟨zero_add _, zero_add _⟩

theorem Yields.evictFull (hw : c.Wf) (hp : Protected c.toRadixTree held)
    (hnd : (c.total Node.pages).Nodup) (numTokens : Nat) (ties : Nat → Nat) :
    Yields c (c.evictFull numTokens ties) := by
  obtain ⟨hm, hwe⟩ := evictFull_induct (moves_keeps _) numTokens ties hw .refl
  exact yields_of hw hnd hwe hm
    (evictFull_induct (conserves_keeps c) numTokens ties hw (conserves_refl c)).1
    (evictFull_induct (spares_keeps c held) numTokens ties hw ⟨hp, spares_refl c⟩).1.2

theorem Yields.evictMamba (hw : c.Wf) (hp : Protected c.toRadixTree held)
    (hnd : (c.total Node.pages).Nodup) (num : Nat) : Yields c (c.evictMamba num) := by
  obtain ⟨hm, hwe⟩ := evictMamba_induct (moves_keeps _) num hw .refl
  exact yields_of hw hnd hwe hm
    (evictMamba_induct (conserves_keeps c) num hw (conserves_refl c)).1
    (evictMamba_induct (spares_keeps c held) num hw ⟨hp, spares_refl c⟩).1.2

-- ---------------------------------------------------------------------------
-- How much is returned
-- ---------------------------------------------------------------------------

/-- A cascade takes no snapshot. -/
theorem cascade_snapshots (e : Evicting) (path : List NodeId) (freed : Nat) :
    (cascadeTombstoneLeaves e path freed).1.mambaSlots = e.mambaSlots ∧
      ∀ m, ((cascadeTombstoneLeaves e path freed).1.cache.node m).mambaValue =
          (e.cache.node m).mambaValue ∧
        ((cascadeTombstoneLeaves e path freed).1.cache.node m).mambaRefCount =
          (e.cache.node m).mambaRefCount := by
  induction path generalizing e freed with
  | nil => exact ⟨rfl, fun _ => ⟨rfl, rfl⟩⟩
  | cons a path ih =>
    rw [cascadeTombstoneLeaves]
    split
    · rename_i hcond
      obtain ⟨hslots, hsame⟩ := ih (dropLeaf e a) (freed + (e.cache.node a).length)
      refine ⟨?_, fun m => ?_⟩
      · rw [hslots, dropLeaf_mambaSlots, hcond.1]
        exact List.append_nil _
      · rw [(hsame m).1, (hsame m).2, dropLeaf_mambaValue, dropLeaf_mambaRefCount]
        refine ⟨?_, rfl⟩
        split
        · rename_i hm
          rw [hm, hcond.1]
        · rfl
    · exact ⟨rfl, fun _ => ⟨rfl, rfl⟩⟩

/-- Dropping a branch takes the leaf's snapshot and no other. -/
theorem dropBranch_snapshots {s : Slot} (e : Evicting) (hn : (e.cache.node n).mambaValue = some s) :
    (dropBranch e n).1.mambaSlots = e.mambaSlots ++ [s] ∧
      ∀ m, m ≠ n →
        ((dropBranch e n).1.cache.node m).mambaValue = (e.cache.node m).mambaValue ∧
          ((dropBranch e n).1.cache.node m).mambaRefCount = (e.cache.node m).mambaRefCount := by
  obtain ⟨hslots, hsame⟩ := cascade_snapshots (dropLeaf e n) (e.cache.rootPath n).tail 0
  rw [dropBranch]
  refine ⟨?_, fun m hm => ?_⟩
  · rw [hslots, dropLeaf_mambaSlots, hn]
    rfl
  · rw [(hsame m).1, (hsame m).2, dropLeaf_mambaValue, if_neg hm]
    exact ⟨rfl, dropLeaf_mambaRefCount e n m⟩

/-- One snapshot a round: the candidates left in the order stay candidates. -/
theorem evictMambaLoop_count {num : Nat} {order : List NodeId} (h : e.cache.Wf)
    (hnd : order.Nodup) (hcand : ∀ m ∈ order, (e.cache.node m).mambaValue ≠ none ∧
      (e.cache.node m).mambaRefCount = 0)
    (hlen : e.mambaSlots.length = e.freed) (hle : e.freed ≤ num) :
    (evictMambaLoop num e order).mambaSlots.length = min num (e.freed + order.length) := by
  induction order generalizing e with
  | nil =>
    rw [evictMambaLoop, hlen, List.length_nil]
    omega
  | cons n order ih =>
    rw [evictMambaLoop, List.length_cons]
    split
    · -- enough is freed
      rw [hlen]
      omega
    rename_i hmore
    obtain ⟨hlive, href⟩ := hcand n List.mem_cons_self
    obtain ⟨s, hs⟩ := Option.ne_none_iff_exists'.mp hlive
    have hl := h.snapshot_linked n s hs
    obtain ⟨hnotin, hnd'⟩ := List.nodup_cons.mp hnd
    have hne : ∀ m ∈ order, m ≠ n := fun m hm hmn => hnotin (hmn ▸ hm)
    rw [if_neg (by simp [hlive, href, h.linked_ne_root hl])]
    split
    · -- the branch goes with its snapshot
      rename_i hleaf
      obtain ⟨hslots, hsame⟩ := dropBranch_snapshots e hs
      have hwf := (branchResult h hl hleaf.1 hleaf.2).wf
      rw [dropBranch] at hslots hsame hwf
      refine (ih ?_ hnd' (fun m hm => ?_) ?_ ?_).trans ?_
      · exact hwf
      · rw [(hsame m (hne m hm)).1, (hsame m (hne m hm)).2]
        exact hcand m (List.mem_cons_of_mem _ hm)
      · show List.length _ = e.freed + 1
        rw [hslots, List.length_append, hlen]
        rfl
      · show e.freed + 1 ≤ num
        omega
      · show min num (e.freed + 1 + order.length) = _
        omega
    · -- only the snapshot goes
      refine (ih ?_ hnd' (fun m hm => ?_) ?_ ?_).trans ?_
      · exact freeNodeMamba_wf h n _
      · rw [freeNodeMamba_mambaValue, if_neg (hne m hm), (freeNodeMamba_counts _ _ _ _).2]
        exact hcand m (List.mem_cons_of_mem _ hm)
      · show List.length _ = e.freed + 1
        rw [(freeNodeMamba_some hs e.mambaSlots).2, List.length_append, hlen]
        rfl
      · show e.freed + 1 ≤ num
        omega
      · show min num (e.freed + 1 + order.length) = _
        omega

theorem mem_mambaCands (h : c.Wf) : n ∈ c.mambaCands ↔
    (c.node n).mambaValue ≠ none ∧ (c.node n).mambaRefCount = 0 := by
  rw [mambaCands, List.mem_filter, List.mem_range, Bool.and_eq_true, Bool.and_eq_true,
    Option.isSome_iff_ne_none, beq_iff_eq]
  refine ⟨fun ⟨_, ⟨_, hv⟩, hr⟩ => ⟨hv, hr⟩, fun ⟨hv, hr⟩ => ?_⟩
  obtain ⟨s, hs⟩ := Option.ne_none_iff_exists'.mp hv
  have hl := h.snapshot_linked n s hs
  exact ⟨h.linked_lt hl, ⟨hl, hv⟩, hr⟩

/-- The gauge counts the candidates. -/
theorem mambaCands_length (hg : c.Gauged) : (c.mambaCands.length : ℤ) = c.mambaEvictable := by
  have hval := congrFun hg .mambaEvictable
  have happ := map_total (Pi.evalAddMonoidHom (fun _ : Gauge => ℤ) .mambaEvictable)
    c.toRadixTree Node.gauge
  rw [Pi.evalAddMonoidHom_apply, ← hval] at happ
  refine Eq.symm (happ.trans ?_)
  rw [total, mambaCands, ← tally_ite_one]
  refine tally_congr fun n _ => ?_
  rw [Node.weight, Pi.evalAddMonoidHom_apply, Node.gauge]
  by_cases hl : (c.node n).linked = true
  · simp [hl]
  · simp [hl]

theorem evictMamba_count (hw : c.Wf) (hg : c.Gauged) (num : Nat) :
    ((c.evictMamba num).mambaSlots.length : ℤ) = min (num : ℤ) c.mambaEvictable := by
  have hnd : (c.mambaCands.insertionSort c.EvictsBefore).Nodup :=
    (List.perm_insertionSort _ _).nodup_iff.mpr (List.nodup_range.filter _)
  have hcount := evictMambaLoop_count (e := ⟨c, [], [], 0⟩) hw hnd (fun m hm => by
    rw [List.mem_insertionSort] at hm
    exact (mem_mambaCands hw).mp hm) rfl (Nat.zero_le num)
  rw [List.length_insertionSort, Nat.zero_add] at hcount
  rw [HybridRadixCache.evictMamba, hcount, ← mambaCands_length hg]
  omega

/-- The tokens returned are what the gauge lost. -/
theorem tokens_keeps (k : ℤ) :
    EvictionKeeps fun e => (e.kvIndices.length : ℤ) + e.cache.fullEvictable = k where
  drop := by
    intro e n hw hn _ _ h
    have hlen := hw.key_value n hn
    have hkeep : (e.cache.freeNodeMamba n e.mambaSlots).1.fullEvictable = e.cache.fullEvictable := by
      rw [freeNodeMamba]
      split <;> rfl
    show ((e.kvIndices ++ (e.cache.node n).value).length : ℤ) +
      ((e.cache.freeNodeMamba n e.mambaSlots).1.fullEvictable - (e.cache.node n).key.length) = k
    rw [List.length_append, hlen, hkeep]
    omega
  free := by
    intro e n _ _ _ _ h
    have hkeep : (e.cache.freeNodeMamba n e.mambaSlots).1.fullEvictable = e.cache.fullEvictable := by
      rw [freeNodeMamba]
      split <;> rfl
    show (e.kvIndices.length : ℤ) + (e.cache.freeNodeMamba n e.mambaSlots).1.fullEvictable = k
    rw [hkeep]
    exact h
  freed := fun _ _ h => h

/-- The linked nodes. -/
def nodeCount (c : HybridRadixCache) : Nat := c.total fun _ => (1 : ℕ)

theorem nodeCount_dropBranch (h : e.cache.Wf) (hn : (e.cache.node n).linked = true)
    {top : NodeId} {e' : Evicting} (hr : BranchResult e n e' top) :
    e'.cache.nodeCount < e.cache.nodeCount := by
  have hle : ∀ m, (e'.cache.node m).weight (fun _ => (1 : ℕ)) ≤
      (e.cache.node m).weight fun _ => (1 : ℕ) := by
    intro m
    rw [Node.weight, Node.weight]
    split
    · rename_i hl
      rw [if_pos (hr.unlinked m hl).2]
    · omega
  have hlt : (e'.cache.node n).weight (fun _ => (1 : ℕ)) <
      (e.cache.node n).weight fun _ => (1 : ℕ) := by
    rw [Node.weight, Node.weight, if_pos hn, if_neg fun hl => (hr.unlinked n hl).1 rfl]
    omega
  rw [nodeCount, nodeCount, total, total, hr.next]
  exact Finset.sum_lt_sum (fun m _ => hle m) ⟨n, Finset.mem_range.mpr (h.linked_lt hn), hlt⟩

/-- The tokens a branch gives, as the loop adds them up. -/
theorem cascade_freed (e : Evicting) (path : List NodeId) (freed : Nat)
    (hval : ∀ m ∈ path, (e.cache.node m).value.length = (e.cache.node m).key.length) :
    (cascadeTombstoneLeaves e path freed).1.kvIndices.length + freed =
      e.kvIndices.length + (cascadeTombstoneLeaves e path freed).2.2 := by
  induction path generalizing e freed with
  | nil => rfl
  | cons a path ih =>
    rw [cascadeTombstoneLeaves]
    split
    · have hlen := hval a List.mem_cons_self
      have hrest := ih (dropLeaf e a) (freed + (e.cache.node a).length) fun m hm => by
        rw [dropLeaf_value, dropLeaf_key]
        exact hval m (List.mem_cons_of_mem _ hm)
      have hkv : (dropLeaf e a).kvIndices.length = e.kvIndices.length + (e.cache.node a).length := by
        show (e.kvIndices ++ (e.cache.node a).value).length = _
        rw [List.length_append, hlen]
        rfl
      omega
    · rfl

theorem dropBranch_freed (h : e.cache.Wf) (hn : (e.cache.node n).linked = true) :
    (dropBranch e n).1.kvIndices.length =
      e.kvIndices.length + (e.cache.node n).length + (dropBranch e n).2.2 := by
  have hval : ∀ m ∈ e.cache.rootPath n, (e.cache.node m).value.length = (e.cache.node m).key.length :=
    fun m hm => h.key_value m (h.linked_of_mem_rootPath (.inr hn) m hm)
  have hcasc := cascade_freed (dropLeaf e n) (e.cache.rootPath n).tail 0 fun m hm => by
    rw [dropLeaf_value, dropLeaf_key]
    exact hval m (List.mem_of_mem_tail hm)
  have hkv : (dropLeaf e n).kvIndices.length = e.kvIndices.length + (e.cache.node n).length := by
    show (e.kvIndices ++ (e.cache.node n).value).length = _
    rw [List.length_append, h.key_value n hn]
    rfl
  rw [dropBranch]
  omega

/-- An unlocked leaf. -/
def Evictable (c : HybridRadixCache) (m : NodeId) : Prop :=
  (c.node m).linked = true ∧ c.isLeaf m = true ∧ (c.node m).refCount = 0

theorem heapPop_ne_none {tie : Nat} {heap : List NodeId} {m : NodeId} (hm : m ∈ heap) :
    c.heapPop tie heap ≠ none := popOldest_ne_none hm

/-- With fuel for every round, the loop stops for having enough or for want of leaves. -/
theorem evictFullLoop_exhausts (numTokens : Nat) (ties : Nat → Nat) {fuel : Nat}
    {heap : List NodeId} (h : e.cache.Wf) (hh : HeapOk e heap)
    (hlen : e.kvIndices.length = e.freed) (hfuel : 2 * e.cache.nodeCount + heap.length ≤ fuel) :
    numTokens ≤ (evictFullLoop numTokens ties fuel e heap).kvIndices.length ∨
      ∀ m, ¬ (evictFullLoop numTokens ties fuel e heap).cache.Evictable m := by
  induction fuel generalizing e heap with
  | zero =>
    right
    intro m hm
    have hmem := (hh.mem_iff m).mpr hm
    have := List.length_pos_of_mem hmem
    omega
  | succ fuel ih =>
    rw [evictFullLoop]
    split
    · left
      omega
    split
    · rename_i hpop
      right
      intro m hm
      have hmem := (hh.mem_iff m).mpr hm
      exact heapPop_ne_none hmem hpop
    rename_i n hpop
    have hmem := heapPop_mem hpop
    obtain ⟨hnl, hnleaf, href⟩ := (hh.mem_iff n).mp hmem
    have hr := branchResult h hnl hnleaf href
    have hcount := nodeCount_dropBranch h hnl hr
    have herase := List.length_erase_of_mem hmem
    have hpos := List.length_pos_of_mem hmem
    dsimp only
    rw [if_neg (by simp [href, hnleaf, h.linked_ne_root hnl])]
    refine ih hr.wf (hh.dropBranch h hmem _) ?_ ?_
    · have := dropBranch_freed h hnl
      show (dropBranch e n).1.kvIndices.length = e.freed + _ + (dropBranch e n).2.2
      omega
    · show 2 * (dropBranch e n).1.cache.nodeCount + _ ≤ fuel
      split
      · rw [List.length_cons]
        omega
      · omega

theorem fullEvictable_eq_zero (hg : c.Gauged)
    (hlocked : ∀ m, (c.node m).linked = true → (c.node m).refCount ≠ 0) : c.fullEvictable = 0 := by
  have hval := congrFun hg .fullEvictable
  have happ := map_total (Pi.evalAddMonoidHom (fun _ : Gauge => ℤ) .fullEvictable)
    c.toRadixTree Node.gauge
  rw [Pi.evalAddMonoidHom_apply, ← hval] at happ
  refine happ.trans (tally_eq_zero fun m _ => ?_)
  rw [Node.weight]
  split
  · rename_i hl
    exact if_neg (hlocked m hl)
  · rfl

theorem evictFull_tokens (hw : c.Wf) (hp : Protected c.toRadixTree held) (hg : c.Gauged)
    (numTokens : Nat) (ties : Nat → Nat) :
    min (numTokens : ℤ) c.fullEvictable ≤ (c.evictFull numTokens ties).kvIndices.length := by
  have hloss := (evictFull_induct (tokens_keeps c.fullEvictable) numTokens ties hw
    (by simp)).1
  obtain ⟨⟨hpe, hge⟩, hwe⟩ :=
    evictFull_induct (Gauged.evictionKeeps held) numTokens ties hw ⟨hp, hg⟩
  have hfuel : 2 * c.nodeCount + (c.leaves.filter fun n => (c.node n).refCount = 0).length ≤
      3 * c.next := by
    have hnodes : c.nodeCount ≤ c.next := linkedCount_le c.toRadixTree
    have hleaves : (c.leaves.filter fun n => (c.node n).refCount = 0).length ≤ c.next := by
      refine (List.length_filter_le _ _).trans ((List.length_filter_le _ _).trans ?_)
      rw [List.length_range]
    omega
  rcases evictFullLoop_exhausts numTokens ties hw (heapOk_leaves hw 0) rfl
    hfuel with hmore | hnone
  · exact (min_le_left _ _).trans (Int.ofNat_le.mpr hmore)
  · have hzero := fullEvictable_eq_zero hge fun m => hpe.toRefInv.locked_of_no_leaf hwe hnone
    rw [hzero] at hloss
    exact (min_le_right _ _).trans (by omega)

end HybridRadixCache

end FreeToken.KvCache
