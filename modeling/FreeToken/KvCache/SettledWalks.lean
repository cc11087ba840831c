import FreeToken.KvCache.HandleRuns

/-!
# Settled walks

A walk splits the node it leaves in the middle. From then on the same input leads to
the same node without a split, whatever is stamped, locked, evicted elsewhere or
unlocked in between: an eviction takes nodes off the tree, none above a lock, and adds
no child.

## Results

* `walk_settles` — a walk leaves its input settled;
* `Settled.walk` — a settled input is walked with stamps only;
* `settled_evictionKeeps` — evictions keep what is locked settled.
-/

namespace FreeToken.KvCache

open FreeToken.Lib

namespace RadixTree

/-- `toks` leads to `n`, which stands for its first `k` tokens and has no child to go on to. -/
structure Settled (t : RadixTree) (toks : List Token) (n : NodeId) (k : Nat) : Prop where
  inTree : t.InTree n
  tokens : t.pathTokens n = toks.take k
  le : k ≤ toks.length
  stuck : k = toks.length ∨ t.childOf n (toks.drop k) = none

variable {t t' : RadixTree} {toks : List Token} {n : NodeId} {k : Nat}

theorem Settled.pathLen (h : t.Settled toks n k) : t.pathLen n = k := by
  rw [pathLen_eq_length, h.tokens, List.length_take_of_le h.le]

theorem Settled.sameShape (h : t.Settled toks n k) (hs : SameShape t t') : t'.Settled toks n k where
  inTree := (hs.inTree_iff n).mpr h.inTree
  tokens := (hs.pathTokens_eq n).trans h.tokens
  le := h.le
  stuck := h.stuck.imp_right fun hnone => (hs.childOf_eq n _).trans hnone

theorem walk_settles (h : t.Wf) (toks : List Token) (tic : Time) :
    (t.walk toks tic).1.Settled toks (t.walk toks tic).2.1 (t.walk toks tic).2.2 := by
  have hend := walk_end toks tic h
  have hbound := hend.bound
  have hstuck := hend.stuck
  rw [Nat.zero_add] at hbound hstuck
  exact ⟨hend.inTree, walk_tokens h toks tic, hbound, hstuck⟩

/-- A settled input is walked again with stamps only. -/
theorem Settled.walk (h : t.Settled toks n k) (hw : t.Wf) (tic : Time) :
    ∃ t', Restamped t t' ∧ t.walk toks tic = (t', n, k) := by
  have hpath := length_le_pathLen hw h.inTree
  have hlen : (t.pathTokens n).length = k := by rw [h.tokens, List.length_take_of_le h.le]
  have hsplit : toks = t.pathTokens n ++ toks.drop k := by
    rw [h.tokens, List.take_append_drop]
  obtain ⟨t', hres, heq⟩ := walkLoop_path tic hw h.inTree
    (toks.length - (t.rootPath n).length) (toks.drop k)
  have hle := h.le
  rw [Nat.sub_add_cancel (by omega), ← hsplit, h.pathLen] at heq
  refine ⟨t', hres, ?_⟩
  rw [RadixTree.walk, heq]
  -- nothing to go on to, so the loop stops here
  cases toks.length - (t.rootPath n).length with
  | zero => rfl
  | succ fuel =>
    rw [walkLoop]
    rcases h.stuck with hall | hnone
    · rw [if_pos (List.drop_eq_nil_of_le (Nat.le_of_eq hall.symm))]
    · split
      · rfl
      · rw [hres.childOf_eq, hnone]

theorem Settled.pos_iff (h : t.Settled toks n k) (hw : t.Wf) : 0 < k ↔ n ≠ root := by
  rw [← h.pathLen, pathLen_eq_length]
  refine ⟨fun hpos he => ?_, fun hne => ?_⟩
  · rw [he, pathTokens_root hw] at hpos
    exact absurd hpos (Nat.lt_irrefl 0)
  · have hmem := hw.mem_rootPath_self (hw.inTree_lt h.inTree) hne
    exact Nat.lt_of_lt_of_le (List.length_pos_of_mem hmem) (length_le_pathLen hw h.inTree)

theorem childOf_unlink_none {p m : NodeId} {rest : List Token} (h : t.childOf p rest = none) :
    (t.unlink m).childOf p rest = none := by
  rw [childOf, List.find?_eq_none] at h ⊢
  intro c hc hfound
  refine h c hc ?_
  have hkey : ((t.unlink m).node c).key = (t.node c).key := unlink_field t m c Node.key fun _ => rfl
  have hpar : ((t.unlink m).node c).parent = (t.node c).parent :=
    unlink_field t m c Node.parent fun _ => rfl
  simp only [Bool.and_eq_true, hkey, hpar] at hfound ⊢
  refine ⟨⟨?_, hfound.1.2⟩, hfound.2⟩
  have hlinked := hfound.1.1
  rw [unlink_node] at hlinked
  split at hlinked
  · cases hlinked
  · exact hlinked

/-- A node off the path leaves the tree. -/
theorem Settled.unlink (h : t.Settled toks n k) (hw : t.Wf) {m : NodeId}
    (hm : m ∉ t.rootPath n) : (t.unlink m).Settled toks n k where
  inTree := by
    rcases h.inTree with hr | hl
    · exact .inl hr
    · have hne : n ≠ m := by
        rintro rfl
        exact hm (hw.mem_rootPath_self (hw.linked_lt hl) (hw.linked_ne_root hl))
      refine .inr ?_
      rw [unlink_node, if_neg hne]
      exact hl
  tokens := by
    rw [← h.tokens]
    exact concat_unlink (f := Node.key) (fun _ => rfl) m n
  le := h.le
  stuck := h.stuck.imp_right childOf_unlink_none

end RadixTree

namespace HybridRadixCache

open RadixTree

/-- Evictions leave what is settled on a locked path settled. -/
theorem settled_evictionKeeps (toks : List Token) (n : NodeId) (k : Nat) :
    EvictionKeeps fun e => e.cache.Settled toks n k ∧
      ∀ m ∈ e.cache.rootPath n, 0 < (e.cache.node m).refCount where
  drop := by
    rintro e m hw - - href ⟨hs, hl⟩
    -- what is dropped has no lock, so it is not on the path
    have hoff : m ∉ e.cache.rootPath n := fun hm => (hl m hm).ne' href
    have hshape := freeNodeMamba_sameShape e.cache m e.mambaSlots
    rw [dropLeaf_tree]
    refine ⟨(hs.sameShape hshape).unlink (freeNodeMamba_wf hw m e.mambaSlots) ?_, fun a ha => ?_⟩
    · rwa [hshape.rootPath_eq]
    · rw [rootPath_unlink, hshape.rootPath_eq] at ha
      rw [← dropLeaf_tree, dropLeaf_refCount]
      exact hl a ha
  free := by
    rintro e m j - - - ⟨hs, hl⟩
    have hshape := freeNodeMamba_sameShape e.cache m e.mambaSlots
    refine ⟨hs.sameShape hshape, fun a ha => ?_⟩
    rw [hshape.rootPath_eq] at ha
    rw [(freeNodeMamba_counts e.cache m a e.mambaSlots).1]
    exact hl a ha
  freed := fun _ _ h => h

end HybridRadixCache

end FreeToken.KvCache
