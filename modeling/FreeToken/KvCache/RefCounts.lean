import FreeToken.KvCache.TreeInvariant

/-!
# Reference counts

`held` are the nodes that locks are on, one entry a lock. A node's `refCount` is
the number of locks at or below it, also when splits have put new nodes above a
locked one since.

## Results

* `RefInv.splitAt`, `RefInv.addLeaf`, `RefInv.unlink` — the tree's mutations keep it;
* `RefInv.inc`, `RefInv.dec` — one lock more, one less;
* `RefInv.refCount_le_parent`, `RefInv.locked_of_no_leaf` — counts do not grow towards the leaves.
-/

namespace FreeToken.KvCache

open FreeToken.Lib RadixTree

structure RefInv (t : RadixTree) (held : List NodeId) : Prop where
  lt : ∀ k ∈ held, k < t.next
  refs : ∀ n < t.next, n ≠ root → (t.node n).refCount = held.countP fun k => n ∈ t.rootPath k

namespace RefInv

variable {t t' : RadixTree} {held : List NodeId} {n m : NodeId}

theorem empty (ps : Nat) : RefInv (.empty ps) [] where
  lt := fun _ hk => absurd hk List.not_mem_nil
  refs := fun _ hn hr => absurd (Nat.lt_one_iff.mp hn) hr

theorem congr (h : RefInv t held) (hs : SameShape t t')
    (href : ∀ m, (t'.node m).refCount = (t.node m).refCount) : RefInv t' held where
  lt := by rw [hs.next]; exact h.lt
  refs := by
    intro m hm hr
    rw [hs.next] at hm
    simp only [hs.rootPath_eq]
    rw [href]
    exact h.refs m hm hr

theorem splitAt (h : RefInv t held) (hw : t.Wf) {pos : Nat} (hok : t.SplitOk n pos) :
    RefInv (t.splitAt n pos).1 held := by
  have hlt := hw.linked_lt hok.linked
  have hn : n ≠ t.next := Nat.ne_of_lt hlt
  have hpath : ∀ k ∈ held, ∀ b, b ∈ (t.splitAt n pos).1.rootPath k ↔
      b ∈ t.rootPath k ∨ (b = t.next ∧ n ∈ t.rootPath k) := fun k hk b =>
    hw.mem_rootPath_splitAt hok (Nat.ne_of_lt (h.lt k hk))
  refine ⟨fun k hk => Nat.lt_succ_of_lt (h.lt k hk), fun m hm hr => ?_⟩
  by_cases hs : m = t.next
  · -- the new node is above exactly the locks the old one is above
    rw [hs, splitAt_prefixLen]
    show (t.node n).refCount = _
    rw [h.refs n hlt (hw.linked_ne_root hok.linked)]
    refine List.countP_congr fun k hk => ?_
    rw [decide_eq_true_iff, decide_eq_true_iff, hpath k hk]
    refine ⟨fun hmem => .inr ⟨rfl, hmem⟩, fun hmem => ?_⟩
    rcases hmem with hmem | hmem
    · exact absurd (hw.mem_rootPath_lt hmem).1 (Nat.lt_irrefl _)
    · exact hmem.2
  · have hm' : m < t.next := Nat.lt_of_le_of_ne (Nat.le_of_lt_succ hm) hs
    have hcount : ((t.splitAt n pos).1.node m).refCount = (t.node m).refCount := by
      by_cases hmn : m = n
      · rw [hmn, splitAt_suffix t n pos hn]
      · rw [splitAt_old t n m pos hmn hs]
    rw [hcount, h.refs m hm' hr]
    refine List.countP_congr fun k hk => ?_
    rw [decide_eq_true_iff, decide_eq_true_iff, hpath k hk]
    exact ⟨.inl, fun hmem => hmem.resolve_right fun hh => hs hh.1⟩

theorem addLeaf (h : RefInv t held) (hw : t.Wf) {p : NodeId} {key : List Token}
    {value : List KvIndex} {now : Time} (hok : t.LeafOk p key value) :
    RefInv (t.addLeaf p key value now).1 held := by
  have hpath : ∀ k ∈ held, (t.addLeaf p key value now).1.rootPath k = t.rootPath k :=
    fun k hk => hw.rootPath_addLeaf hok (Nat.ne_of_lt (h.lt k hk))
  refine ⟨fun k hk => Nat.lt_succ_of_lt (h.lt k hk), fun m hm hr => ?_⟩
  by_cases hs : m = t.next
  · rw [hs, addLeaf_new]
    refine (List.countP_eq_zero.mpr fun k hk hmem => ?_).symm
    rw [hpath k hk, decide_eq_true_iff] at hmem
    exact absurd (hw.mem_rootPath_lt hmem).1 (Nat.lt_irrefl _)
  · rw [addLeaf_old t p m key value now hs,
      h.refs m (Nat.lt_of_le_of_ne (Nat.le_of_lt_succ hm) hs) hr]
    exact List.countP_congr fun k hk => by rw [hpath k hk]

theorem unlink (h : RefInv t held) (n : NodeId) : RefInv (t.unlink n) held where
  lt := h.lt
  refs := fun m hm hr => by
    have hsame : ((t.unlink n).node m).refCount = (t.node m).refCount :=
      modify_field t n m Node.refCount fun _ => rfl
    simp only [rootPath_unlink]
    rw [hsame]
    exact h.refs m hm hr

theorem perm {held' : List NodeId} (h : RefInv t held) (hp : held'.Perm held) :
    RefInv t held' where
  lt := fun k hk => h.lt k (hp.mem_iff.mp hk)
  refs := fun m hm hr => by rw [h.refs m hm hr, hp.countP_eq]

theorem count_rootPath (h : t.Wf) (a b : NodeId) :
    (t.rootPath a).count b = if b ∈ t.rootPath a then 1 else 0 := by
  split
  · rename_i hmem
    exact List.count_eq_one_of_mem (h.upPath a).nodup hmem
  · rename_i hmem
    exact List.count_eq_zero_of_not_mem hmem

/-- One more on every node of the path of `n`. -/
theorem inc (h : RefInv t held) (hw : t.Wf) (hn : n < t.next) (hs : SameShape t t')
    (href : ∀ m, (t'.node m).refCount = (t.node m).refCount + (t.rootPath n).count m) :
    RefInv t' (n :: held) := by
  refine ⟨fun k hk => ?_, fun m hm hr => ?_⟩
  · rw [hs.next]
    rcases List.mem_cons.mp hk with rfl | hk
    · exact hn
    · exact h.lt k hk
  · rw [hs.next] at hm
    simp only [hs.rootPath_eq]
    rw [href, h.refs m hm hr, count_rootPath hw, List.countP_cons]
    simp only [decide_eq_true_iff]

/-- One less on every node of the path of `n`. -/
theorem dec (h : RefInv t (n :: held)) (hw : t.Wf) (hs : SameShape t' t)
    (href : ∀ m, (t.node m).refCount = (t'.node m).refCount + (t.rootPath n).count m) :
    RefInv t' held := by
  refine ⟨fun k hk => ?_, fun m hm hr => ?_⟩
  · rw [← hs.next]
    exact h.lt k (List.mem_cons_of_mem _ hk)
  · rw [← hs.next] at hm
    have hm := h.refs m hm hr
    rw [List.countP_cons, href, count_rootPath hw] at hm
    simp only [decide_eq_true_iff, hs.rootPath_eq] at hm ⊢
    exact Nat.add_right_cancel hm

theorem refCount_le_parent (h : RefInv t held) (hw : t.Wf) {p : NodeId}
    (hp : (t.node n).parent = some p) (hroot : p ≠ root) (hn : n ≠ root) :
    (t.node n).refCount ≤ (t.node p).refCount := by
  obtain ⟨hnlt, hplt⟩ := hw.parent_lt n p hp
  rw [h.refs n hnlt hn, h.refs p hplt hroot]
  refine List.countP_mono_left fun k _ hmem => ?_
  rw [decide_eq_true_iff] at hmem ⊢
  refine (hw.upPath k).mem_trans hmem (hw.upPath n) ?_
  rw [hw.rootPath_cons hp]
  exact List.mem_cons_of_mem _ (hw.mem_rootPath_self hplt hroot)

/-- A node that a lock is on, or is below, is counted. -/
theorem refCount_pos (h : RefInv t held) (hw : t.Wf) {k : NodeId} (hk : k ∈ held)
    (hmem : n ∈ t.rootPath k) : 0 < (t.node n).refCount := by
  obtain ⟨hlt, hroot⟩ := hw.mem_rootPath_lt hmem
  rw [h.refs n hlt hroot]
  exact List.countP_pos_iff.mpr ⟨k, hk, decide_eq_true hmem⟩

/-- Where no leaf is unlocked, no node is: counts do not grow towards the leaves. -/
theorem locked_of_no_leaf (h : RefInv t held) (hw : t.Wf)
    (hleaf : ∀ m, ¬ ((t.node m).linked = true ∧ t.isLeaf m = true ∧ (t.node m).refCount = 0))
    (hn : (t.node n).linked = true) : (t.node n).refCount ≠ 0 := by
  induction hk : t.next - (t.rootPath n).length using Nat.strong_induction_on generalizing n with
  | _ k ih =>
    intro href
    -- a linked child is unlocked too, and deeper
    obtain ⟨d, hd, hdl, hdp⟩ : ∃ d < t.next, (t.node d).linked = true ∧
        (t.node d).parent = some n := by
      by_contra hno
      refine hleaf n ⟨hn, isLeaf_iff.mpr fun d hd hl hp => hno ⟨d, hd, hl, hp⟩, href⟩
    have hle := h.refCount_le_parent hw hdp (hw.linked_ne_root hn) (hw.linked_ne_root hdl)
    have hpath := hw.rootPath_cons hdp
    have hlen := (hw.upPath d).length_le fun m hm => (hw.mem_rootPath_lt hm).1
    rw [hpath, List.length_cons] at hlen
    refine ih (t.next - (t.rootPath d).length) ?_ hdl rfl (by omega)
    rw [hpath, List.length_cons, ← hk]
    exact Nat.sub_lt_sub_left (Nat.lt_of_succ_le hlen) (Nat.lt_succ_self _)

end RefInv

end FreeToken.KvCache
