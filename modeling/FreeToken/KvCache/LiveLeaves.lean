import FreeToken.KvCache.Calls
import FreeToken.KvCache.EvictionYield
import FreeToken.KvCache.SnapshotLock

/-!
# Unlocked leaves carry a snapshot

An insert attaches a snapshot to the leaf it makes, and an eviction clears away
every unlocked leaf it leaves without one. A locked node stops the clearing: its
subtree or its snapshot may be evicted around the lock, and then it is a leaf
without a snapshot that only the lock keeps. `dec_lock` clears nothing away. So
the invariant holds as long as no unlock ends the last lock on such a leaf.

## Results

* `unlocked_leaves_live` — in a run without such an unlock every unlocked leaf
  has a snapshot, and its own tokens match it;
* `decLock_strands` — each such unlock breaks the invariant at once;
* `unlock_strands_leaf` — a run with one.
-/

namespace FreeToken.KvCache

open FreeToken.Lib RadixTree

namespace RadixTree

/-- An unlocked leaf of the tree without a snapshot. -/
structure Stranded (t : RadixTree) (n : NodeId) : Prop where
  linked : (t.node n).linked = true
  leaf : t.isLeaf n = true
  unlocked : (t.node n).refCount = 0
  bare : (t.node n).mambaValue = none

variable {t t' : RadixTree} {n m p : NodeId}

theorem Stranded.congr (h : t'.Stranded m) (hs : SameShape t t')
    (href : (t'.node m).refCount = 0 → (t.node m).refCount = 0)
    (hlive : (t'.node m).mambaValue = none → (t.node m).mambaValue = none) : t.Stranded m :=
  ⟨(hs.linked m).symm.trans h.linked, (hs.isLeaf_eq m).symm.trans h.leaf, href h.unlocked,
    hlive h.bare⟩

/-- A split makes no leaf. -/
theorem Stranded.of_splitAt (hw : t.Wf) {pos : Nat} (hok : t.SplitOk n pos)
    (h : (t.splitAt n pos).1.Stranded m) : t.Stranded m := by
  have hlt := hw.linked_lt hok.linked
  have hn : n ≠ t.next := Nat.ne_of_lt hlt
  have hlink := splitAt_linked t n pos hn
  have hpar := splitAt_parent t n pos hn
  have hleaf := isLeaf_iff.mp h.leaf
  have hms : m ≠ t.next := by
    rintro rfl
    refine hleaf n (Nat.lt_succ_of_lt hlt) ((hlink n).mpr (.inr hok.linked)) ?_
    rw [hpar, if_neg hn, if_pos rfl]
  have hcounts : ((t.splitAt n pos).1.node m).refCount = (t.node m).refCount := by
    by_cases hmn : m = n
    · rw [hmn, splitAt_suffix t n pos hn]
    · rw [splitAt_old t n m pos hmn hms]
  have hbare := h.bare
  rw [splitAt_mambaValue t n pos hn, if_neg hms] at hbare
  refine ⟨((hlink m).mp h.linked).resolve_left hms, isLeaf_iff.mpr fun d hd hl hp => ?_,
    hcounts.symm.trans h.unlocked, hbare⟩
  by_cases hdn : d = n
  · -- the new node takes the place of `n` below its parent
    refine hleaf t.next (Nat.lt_succ_self _) ((hlink _).mpr (.inl rfl)) ?_
    rw [hpar, if_pos rfl, ← hdn]
    exact hp
  · refine hleaf d (Nat.lt_succ_of_lt hd) ((hlink d).mpr (.inr hl)) ?_
    rw [hpar, if_neg (Nat.ne_of_lt hd), if_neg hdn]
    exact hp

/-- A new leaf makes no other one. -/
theorem Stranded.of_addLeaf {key : List Token} {value : List KvIndex} {now : Time}
    (h : (t.addLeaf p key value now).1.Stranded m) (hm : m ≠ t.next) : t.Stranded m := by
  have hold := addLeaf_old t p m key value now hm
  refine ⟨by rw [← hold]; exact h.linked, isLeaf_iff.mpr fun d hd hl hp => ?_,
    by rw [← hold]; exact h.unlocked, by rw [← hold]; exact h.bare⟩
  have hd' := addLeaf_old t p d key value now (Nat.ne_of_lt hd)
  refine isLeaf_iff.mp h.leaf d (Nat.lt_succ_of_lt hd) ?_ ?_
  · rw [hd']
    exact hl
  · rw [hd']
    exact hp

theorem walkKeeps_live : WalkKeeps fun t => ∀ m, ¬ t.Stranded m where
  annotate := fun t n f _ hf h m hm => h m (hm.congr (.annotate hf t n)
    (fun h0 => by rwa [modify_field t n m Node.refCount hf.refCount] at h0)
    fun hv => by rwa [modify_field t n m Node.mambaValue hf.mambaValue] at hv)
  split := fun _ _ _ hw hok h m hm => h m (hm.of_splitAt hw hok)

end RadixTree

namespace HybridRadixCache

variable {c c' : HybridRadixCache} {n m : NodeId}

-- ---------------------------------------------------------------------------
-- Inserts
-- ---------------------------------------------------------------------------

/-- Only the boundary node of an insert may want for a snapshot before the donation. -/
theorem extendPath_live (hw : c.Wf) (h : ∀ m, ¬ c.Stranded m) {inputIds : List Token}
    {kvIndices : List KvIndex} {tic now : Time} {len : Nat}
    (hext : c.extendPath inputIds kvIndices tic now = some (c', n, len)) :
    ∀ m, c'.Stranded m → m = n := by
  have hwalk := walkKeeps_live.walk hw h inputIds tic
  simp only [extendPath] at hext
  split at hext
  · cases hext
    exact fun m hm => absurd hm (hwalk m)
  split at hext
  · cases hext
  · cases hext
    intro m hm
    by_contra hne
    exact hwalk m (hm.of_addLeaf hne)

/-- The boundary node has a snapshot after the donation. -/
theorem donate_live (hw : c.Wf) (h : ∀ m, c.Stranded m → m = n) (slot : Slot)
    (sums : Option Nat) (kind : SnapshotKind) :
    ∀ m, ¬ (c.donate n slot sums kind).1.Stranded m := by
  intro m
  rw [donate]
  split
  · rename_i hroot
    intro hm
    have hmn := h m hm
    exact hw.linked_ne_root hm.linked (hmn.trans hroot)
  split
  · rename_i hsome
    intro hm
    have hf := annotates_note sums kind
    have hold : c.Stranded m := hm.congr (.annotate hf c.toRadixTree n)
      (fun h0 => (modify_field _ n m Node.refCount hf.refCount).symm.trans h0)
      fun hv => (modify_field _ n m Node.mambaValue hf.mambaValue).symm.trans hv
    have hbare := hold.bare
    rw [h m hold] at hbare
    rw [hbare] at hsome
    cases hsome
  · intro hm
    have hval := attach_mambaValue c.toRadixTree n m slot kind sums
    have hbare : ((c.modify n (attached slot kind sums)).node m).mambaValue = none := hm.bare
    by_cases hmn : m = n
    · rw [hval, if_pos hmn] at hbare
      cases hbare
    · refine hmn (h m (hm.congr (.attach c.toRadixTree n slot kind sums) (fun h0 => ?_) fun hv => ?_))
      · have hsame : ((c.modify n (attached slot kind sums)).node m).refCount =
            (c.node m).refCount := modify_field c.toRadixTree n m Node.refCount fun _ => rfl
        exact hsame.symm.trans h0
      · rw [hval, if_neg hmn] at hbare
        exact hbare

theorem insert_live (hw : c.Wf) (h : ∀ m, ¬ c.Stranded m) {inputIds : List Token}
    {kvIndices : List KvIndex} {slot : Slot} {sums : Option Nat} {kind : SnapshotKind}
    {tic now : Time} {r : Nat × Bool} (hslot : c.SlotFree slot)
    (hins : c.insert inputIds kvIndices slot sums kind tic now = some (c', r)) :
    ∀ m, ¬ c'.Stranded m := by
  simp only [insert] at hins
  split at hins
  · cases hins
  obtain ⟨⟨d, node, len⟩, hext, hd⟩ := Option.map_eq_some_iff.mp hins
  cases hd
  have hpages : c.pageSize ∣ (inputIds.take (alignDown inputIds.length c.pageSize)).length := by
    rw [List.length_take, Nat.min_eq_left (alignDown_le _ _)]
    exact dvd_alignDown _ _
  obtain ⟨-, hd⟩ := extendPath_induct (insertKeeps_true kvIndices slot) hw hslot hpages hext trivial
  exact donate_live hd.wf (extendPath_live hw h hext) slot sums kind

-- ---------------------------------------------------------------------------
-- Evictions
-- ---------------------------------------------------------------------------

/-- The ancestor a cascade stops at is not one it would clear away. -/
theorem cascade_top (e : Evicting) (path : List NodeId) (freed : Nat) :
    (cascadeTombstoneLeaves e path freed).2.1 = root ∨
      ¬ (((cascadeTombstoneLeaves e path freed).1.cache.node
          (cascadeTombstoneLeaves e path freed).2.1).mambaValue = none ∧
        (cascadeTombstoneLeaves e path freed).1.cache.isLeaf
          (cascadeTombstoneLeaves e path freed).2.1 = true ∧
        ((cascadeTombstoneLeaves e path freed).1.cache.node
          (cascadeTombstoneLeaves e path freed).2.1).refCount = 0) := by
  induction path generalizing e freed with
  | nil => exact .inl rfl
  | cons a path ih =>
    rw [cascadeTombstoneLeaves]
    split
    · exact ih _ _
    · rename_i hstop
      exact .inr hstop

theorem branchKeeps_live : BranchKeeps fun e => ∀ m, ¬ e.cache.Stranded m where
  branch := by
    intro e n hw hn hleaf href h m hm
    have hr := branchResult hw hn hleaf href
    rcases hr.leaf_new m (.inr hm.linked) hm.leaf with rfl | hold
    · rcases cascade_top (dropLeaf e n) (e.cache.rootPath n).tail 0 with hroot | hstop
      · exact hr.wf.linked_ne_root hm.linked hroot
      · exact hstop ⟨hm.bare, hm.leaf, hm.unlocked⟩
    · obtain ⟨hmn, hml⟩ := hr.unlinked m hm.linked
      refine h m ⟨hml, hold, (hr.refCount m).symm.trans hm.unlocked, ?_⟩
      have hsame := ((cascade_snapshots (dropLeaf e n) (e.cache.rootPath n).tail 0).2 m).1
      rw [dropLeaf_mambaValue, if_neg hmn] at hsame
      exact hsame.symm.trans hm.bare
  free := by
    intro e n k _ _ _ hinner h m hm
    have hs := freeNodeMamba_sameShape e.cache n e.mambaSlots
    have href := (freeNodeMamba_counts e.cache n m e.mambaSlots).1
    by_cases hmn : m = n
    · subst hmn
      exact hinner ⟨(hs.isLeaf_eq m).symm.trans hm.leaf, href.symm.trans hm.unlocked⟩
    · refine h m (hm.congr hs (fun h0 => href.symm.trans h0) fun hv => ?_)
      rwa [freeNodeMamba_mambaValue, if_neg hmn] at hv
  freed := fun _ _ h => h

-- ---------------------------------------------------------------------------
-- Runs
-- ---------------------------------------------------------------------------

/-- Every unlocked leaf has a snapshot, and a match of its own tokens returns it
with all the pages above it. -/
def UnlockedLeavesLive (c : HybridRadixCache) : Prop :=
  ∀ n, (c.node n).linked = true → c.isLeaf n = true → (c.node n).refCount = 0 →
    ∃ slot, (c.node n).mambaValue = some slot ∧
      ∀ tic, (c.matchPrefix (c.pathTokens n) false tic).2 =
        ⟨c.collectKv n, c.pathLen n, some slot, n, c.pathLen n⟩

/-- No unlock ends the last lock on a leaf that has no snapshot. -/
def UnlockOk (c : HybridRadixCache) : CacheCall → Prop
  | .decLock node => ∀ m ∈ c.rootPath node, (c.node m).linked = true → c.isLeaf m = true →
      (c.node m).mambaValue = none → (c.node m).refCount ≠ 1
  | _ => True

instance (c : HybridRadixCache) (a : CacheCall) : Decidable (c.UnlockOk a) := by
  cases a <;> unfold UnlockOk <;> infer_instance

structure LeafInv (c : HybridRadixCache) : Prop where
  wf : c.Wf
  live : ∀ m, ¬ c.Stranded m

theorem leafInv_empty {ps : Nat} (hps : 0 < ps) : (empty ps).LeafInv :=
  ⟨wf_empty hps, fun m hm => by
    have hl := hm.linked
    rw [empty, empty_node] at hl
    split at hl <;> cases hl⟩

theorem UnlockedLeavesLive.of_leafInv (h : c.LeafInv) : c.UnlockedLeavesLive := by
  intro n hl hleaf href
  cases hv : (c.node n).mambaValue with
  | none => exact absurd ⟨hl, hleaf, href, hv⟩ (h.live n)
  | some slot => exact ⟨slot, rfl, LockState.matchPrefix_pathTokens h.wf hv⟩

/-- The counts before and after an unlock. -/
theorem refCount_decLock (hw : c.Wf) (hdec : c.decLock n = some c') (m : NodeId) :
    (c.node m).refCount = (c'.node m).refCount + if m ∈ c.rootPath n then 1 else 0 := by
  have hc := LockInv.counted_decLock hdec
  rw [hc.refCount, RefInv.count_rootPath hw]

theorem LeafInv.step {a : CacheCall} (h : c.LeafInv) (hok : c.UnlockOk a)
    (hst : c.step a = some c') : c'.LeafInv := by
  cases a with
  | matchPrefix inputIds pooled tic =>
    cases hst
    exact ⟨walk_wf inputIds tic h.wf, walkKeeps_live.walk h.wf h.live inputIds tic⟩
  | insert inputIds kvIndices slot sums kind tic now =>
    rw [HybridRadixCache.step, call] at hst
    split at hst
    · cases hst
    rename_i ho
    obtain ⟨⟨_, _⟩, hcall, rfl⟩ := Option.map_eq_some_iff.mp hst
    obtain ⟨⟨d, r⟩, hins, hd⟩ := Option.map_eq_some_iff.mp hcall
    cases hd
    have hslot := slotFree_of_owns h.wf ho
    exact ⟨(insert_induct (insertKeeps_true kvIndices slot) h.wf hslot hins trivial).2,
      insert_live h.wf h.live hslot hins⟩
  | incLock n =>
    rw [HybridRadixCache.step, call] at hst
    split at hst
    · cases hst
      have hc := LockInv.counted_incLock c n
      refine ⟨hc.wf h.wf, fun m hm => ?_⟩
      refine h.live m (hm.congr hc.toSameShape (fun h0 => ?_) fun hv => ?_)
      · rw [hc.refCount] at h0
        omega
      · rwa [hc.mambaValue] at hv
    · cases hst
  | decLock n =>
    obtain ⟨⟨_, _⟩, hcall, rfl⟩ := Option.map_eq_some_iff.mp hst
    obtain ⟨d, hdec, hd⟩ := Option.map_eq_some_iff.mp hcall
    cases hd
    have hc := LockInv.counted_decLock hdec
    refine ⟨hc.wf_symm h.wf, fun m hm => ?_⟩
    have hl := (hc.linked m).trans hm.linked
    have hleaf := (hc.isLeaf_eq m).trans hm.leaf
    have hbare := (hc.mambaValue m).trans hm.bare
    have hcount := refCount_decLock h.wf hdec m
    rw [hm.unlocked] at hcount
    -- the unlock may have been the last on a node of its path
    by_cases hmem : m ∈ c.rootPath n
    · rw [if_pos hmem] at hcount
      exact hok m hmem hl hleaf hbare hcount
    · rw [if_neg hmem] at hcount
      exact h.live m ⟨hl, hleaf, hcount, hbare⟩
  | evictFull numTokens ties =>
    cases hst
    obtain ⟨hlive, hwf⟩ := evictFull_branches branchKeeps_live numTokens ties h.wf h.live
    exact ⟨hwf, hlive⟩
  | evictMamba num =>
    cases hst
    obtain ⟨hlive, hwf⟩ := evictMamba_branches branchKeeps_live num h.wf h.live
    exact ⟨hwf, hlive⟩

theorem unlocked_leaves_live {ps : Nat} (hps : 0 < ps)
    (hs : Reach HybridRadixCache.step UnlockOk (empty ps) c) : c.UnlockedLeavesLive :=
  .of_leafInv (hs.invariant (leafInv_empty hps) fun _ _ _ hi hok hst => hi.step hok hst)

/-- The condition is exact: an unlock that does not meet it strands a leaf. -/
theorem decLock_strands {ps : Nat} (hps : 0 < ps)
    (hs : Reach HybridRadixCache.step UnlockOk (empty ps) c)
    (hst : c.step (.decLock n) = some c') (hbad : ¬ c.UnlockOk (.decLock n)) :
    ¬ c'.UnlockedLeavesLive := by
  have h := hs.invariant (leafInv_empty hps) fun _ _ _ hi hok hst => hi.step hok hst
  intro hlive
  refine hbad fun m hmem hl hleaf hbare hone => ?_
  obtain ⟨⟨_, _⟩, hcall, rfl⟩ := Option.map_eq_some_iff.mp hst
  obtain ⟨d, hdec, hd⟩ := Option.map_eq_some_iff.mp hcall
  cases hd
  have hc := LockInv.counted_decLock hdec
  have hcount := refCount_decLock h.wf hdec m
  rw [hone, if_pos hmem] at hcount
  obtain ⟨slot, hslot, -⟩ := hlive m ((hc.linked m).symm.trans hl)
    ((hc.isLeaf_eq m).symm.trans hleaf) (Nat.succ.inj hcount).symm
  exact absurd (((hc.mambaValue m).symm.trans hbare).symm.trans hslot) (by nofun)

/-- A prefix without a snapshot is locked and unlocked while a prompt below it stays. -/
theorem prefix_lock_ends_above_prompt :
    ∃ c, guardedRun HybridRadixCache.step UnlockOk (empty 1)
        [.insert [1, 2] [10, 11] 7 none .chunk 1 1, .matchPrefix [1] false 2, .incLock 2,
          .decLock 2, .evictMamba 0] = some c ∧
      (c.node 2).mambaValue = none ∧ c.UnlockedLeavesLive := by
  have hrun : (guardedRun HybridRadixCache.step UnlockOk (empty 1)
      [.insert [1, 2] [10, 11] 7 none .chunk 1 1, .matchPrefix [1] false 2, .incLock 2,
        .decLock 2, .evictMamba 0]).map (fun c => (c.node 2).mambaValue) = some none := by
    decide
  obtain ⟨c, hs, hv⟩ := Option.map_eq_some_iff.mp hrun
  exact ⟨c, hs, hv, unlocked_leaves_live Nat.one_pos (reach_of_guardedRun _ hs)⟩

/-- A prefix without a snapshot is locked, the prompt below it evicted, the prefix
unlocked: its page stays in the tree under a leaf that no match returns. -/
theorem unlock_strands_leaf :
    ∃ c, Reach HybridRadixCache.step (fun _ _ => True) (empty 1) c ∧ c.Stranded 2 ∧
      (c.node 2).value = [10] ∧ ¬ c.UnlockedLeavesLive := by
  have hrun : (run HybridRadixCache.step (empty 1)
      [.insert [1, 2] [10, 11] 7 none .chunk 1 1, .matchPrefix [1] false 2, .incLock 2,
        .evictMamba 1, .decLock 2]).map
        (fun c => (c.node 2, c.isLeaf 2)) =
      some ({ parent := some 0, linked := true, key := [1], value := [10], timestamp := 2 },
        true) := by decide
  obtain ⟨c, hs, hv⟩ := Option.map_eq_some_iff.mp hrun
  rw [Prod.mk.injEq] at hv
  obtain ⟨hnode, hleaf⟩ := hv
  have hstr : c.Stranded 2 := ⟨by rw [hnode], hleaf, by rw [hnode], by rw [hnode]⟩
  refine ⟨c, reach_of_run _ hs, hstr, by rw [hnode], fun hlive => ?_⟩
  obtain ⟨slot, hslot, -⟩ := hlive 2 hstr.linked hstr.leaf hstr.unlocked
  rw [hstr.bare] at hslot
  cases hslot

end HybridRadixCache

end FreeToken.KvCache
