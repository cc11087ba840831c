import FreeToken.KvCache.Eviction
import FreeToken.KvCache.Insert
import FreeToken.KvCache.RefCounts

/-!
# Locks and reference counts

Outstanding locks are kept beside the cache: each with its node and the snapshot
slot that was live when it was taken. `LockInv` says what they are worth: every
node on the way from a locked node to the root counts the lock, and a lock on a
live snapshot counts once more and keeps that snapshot.

## Results

* `LockInv.walkKeeps`, `LockInv.insertKeeps`, `LockInv.evictionKeeps` — matches,
  inserts and evictions keep it, and no slot an eviction returns is still in the tree;
* `LockInv.incLock`, `LockInv.decLock` — taking a lock keeps it, and so does
  ending one that gives back what it took (`Settles`);
* `decLock_isSome` — `dec_lock`'s assertion never fires.
-/

namespace FreeToken.KvCache

open FreeToken.Lib RadixTree

/-- An outstanding lock: its node, and the node's snapshot when it was taken. -/
abbrev Lock := NodeId × Option Slot

structure LockInv (t : RadixTree) (locks : List Lock) : Prop where
  lt : ∀ k ∈ locks, k.1 < t.next
  refs : ∀ n < t.next, n ≠ root →
    (t.node n).refCount = locks.countP fun k => n ∈ t.rootPath k.1
  mambaRefs : ∀ n,
    (t.node n).mambaRefCount = locks.countP fun k => k.1 = n ∧ k.2.isSome
  live : ∀ n s, (n, some s) ∈ locks → (t.node n).mambaValue = some s

namespace LockInv

variable {t t' : RadixTree} {locks : List Lock} {n : NodeId}

theorem empty (ps : Nat) : LockInv (.empty ps) [] where
  lt := fun _ hk => absurd hk List.not_mem_nil
  refs := fun n hn hr => absurd (Nat.lt_one_iff.mp hn) hr
  mambaRefs := fun n => by
    rw [empty_node, List.countP_nil]
    split <;> rfl
  live := fun _ _ hk => absurd hk List.not_mem_nil

theorem refInv (h : LockInv t locks) : RefInv t (locks.map Prod.fst) where
  lt := fun k hk => by
    obtain ⟨l, hl, rfl⟩ := List.mem_map.mp hk
    exact h.lt l hl
  refs := fun n hn hr => by
    rw [List.countP_map]
    exact h.refs n hn hr

/-- The reference counts are those of the locked nodes. -/
theorem refs_of (h : RefInv t (locks.map Prod.fst)) : ∀ n < t.next, n ≠ root →
    (t.node n).refCount = locks.countP fun k => n ∈ t.rootPath k.1 := by
  intro n hn hr
  rw [h.refs n hn hr, List.countP_map]
  rfl

theorem congr (h : LockInv t locks) (hs : SameShape t t')
    (href : ∀ m, (t'.node m).refCount = (t.node m).refCount)
    (hmref : ∀ m, (t'.node m).mambaRefCount = (t.node m).mambaRefCount)
    (hlive : ∀ m s, (m, some s) ∈ locks → (t.node m).mambaValue = some s →
      (t'.node m).mambaValue = some s) : LockInv t' locks where
  lt := by rw [hs.next]; exact h.lt
  refs := by
    intro m hm hr
    rw [hs.next] at hm
    simp only [hs.rootPath_eq]
    rw [href]
    exact h.refs m hm hr
  mambaRefs := fun m => by rw [hmref]; exact h.mambaRefs m
  live := fun m s hk => hlive m s hk (h.live m s hk)

/-- A node nobody locks has no lock on its snapshot. -/
theorem not_locked (h : LockInv t locks) (hw : t.Wf) (hn : (t.node n).linked = true)
    (hfree : (t.node n).refCount = 0 ∨ (t.node n).mambaRefCount = 0) (s : Slot) :
    (n, some s) ∉ locks := by
  intro hk
  rcases hfree with h0 | h0
  · rw [h.refs n (hw.linked_lt hn) (hw.linked_ne_root hn), List.countP_eq_zero] at h0
    exact h0 _ hk (decide_eq_true (hw.mem_rootPath_self (hw.linked_lt hn) (hw.linked_ne_root hn)))
  · rw [h.mambaRefs, List.countP_eq_zero] at h0
    exact h0 _ hk (by simp)

-- ---------------------------------------------------------------------------
-- Walks and inserts
-- ---------------------------------------------------------------------------

theorem splitAt (h : LockInv t locks) (hw : t.Wf) {pos : Nat} (hok : t.SplitOk n pos) :
    LockInv (t.splitAt n pos).1 locks := by
  have hn : n ≠ t.next := Nat.ne_of_lt (hw.linked_lt hok.linked)
  refine ⟨fun k hk => Nat.lt_succ_of_lt (h.lt k hk), refs_of (h.refInv.splitAt hw hok),
    fun m => ?_, fun m s hk => ?_⟩
  · by_cases hs : m = t.next
    · rw [hs, splitAt_prefixLen]
      refine (List.countP_eq_zero.mpr fun k hk => ?_).symm
      have := h.lt k hk
      simp [Nat.ne_of_lt this]
    · rw [← h.mambaRefs m]
      by_cases hmn : m = n
      · rw [hmn, splitAt_suffix t n pos hn]
      · rw [splitAt_old t n m pos hmn hs]
  · rw [splitAt_mambaValue t n pos hn, if_neg (Nat.ne_of_lt (h.lt _ hk))]
    exact h.live m s hk

theorem addLeaf (h : LockInv t locks) (hw : t.Wf) {p : NodeId} {key : List Token}
    {value : List KvIndex} {now : Time} (hok : t.LeafOk p key value) :
    LockInv (t.addLeaf p key value now).1 locks := by
  refine ⟨fun k hk => Nat.lt_succ_of_lt (h.lt k hk), refs_of (h.refInv.addLeaf hw hok),
    fun m => ?_, fun m s hk => ?_⟩
  · by_cases hs : m = t.next
    · rw [hs, addLeaf_new]
      refine (List.countP_eq_zero.mpr fun k hk => ?_).symm
      have := h.lt k hk
      simp [Nat.ne_of_lt this]
    · rw [addLeaf_old t p m key value now hs]
      exact h.mambaRefs m
  · rw [addLeaf_old t p m key value now (Nat.ne_of_lt (h.lt _ hk))]
    exact h.live m s hk

theorem walkKeeps (locks : List Lock) : WalkKeeps fun t => LockInv t locks where
  annotate := fun t n f _ hf h => h.congr (.annotate hf t n)
    (fun m => modify_field t n m Node.refCount hf.refCount)
    (fun m => modify_field t n m Node.mambaRefCount hf.mambaRefCount)
    fun m s _ hm => by rwa [modify_field t n m Node.mambaValue hf.mambaValue]
  split := fun _ _ _ hw hok h => h.splitAt hw hok

theorem insertKeeps (locks : List Lock) (kvIndices : List KvIndex) (slot : Slot) :
    InsertKeeps kvIndices slot fun t => LockInv t locks where
  toWalkKeeps := walkKeeps locks
  leaf := fun _ _ _ _ _ hw hok _ h => h.addLeaf hw hok
  attach := fun t n kind sums _ _ hnone _ h => by
    refine h.congr (.attach t n slot kind sums)
      (fun m => modify_field t n m Node.refCount fun _ => rfl)
      (fun m => modify_field t n m Node.mambaRefCount fun _ => rfl) fun m s _ hm => ?_
    rw [attach_mambaValue, if_neg]
    · exact hm
    · rintro rfl
      rw [hnone] at hm
      cases hm

-- ---------------------------------------------------------------------------
-- Evictions
-- ---------------------------------------------------------------------------

/-- The locks hold, and no slot on the eviction's list is still in the tree. -/
structure Evicts (locks : List Lock) (e : Evicting) : Prop where
  inv : LockInv e.cache.toRadixTree locks
  gone : ∀ s ∈ e.mambaSlots, e.cache.SlotFree s

open HybridRadixCache

theorem Evicts.freeNodeMamba {e : Evicting} (h : Evicts locks e) (hw : e.cache.Wf)
    (hn : (e.cache.node n).refCount = 0 ∨ (e.cache.node n).mambaRefCount = 0) :
    LockInv (e.cache.freeNodeMamba n e.mambaSlots).1.toRadixTree locks ∧
      ∀ s ∈ (e.cache.freeNodeMamba n e.mambaSlots).2,
        (e.cache.freeNodeMamba n e.mambaSlots).1.SlotFree s := by
  have hcounts := fun m => freeNodeMamba_counts e.cache n m e.mambaSlots
  have hmamba := fun m => freeNodeMamba_mambaValue e.cache n m e.mambaSlots
  constructor
  · refine h.inv.congr (freeNodeMamba_sameShape e.cache n e.mambaSlots)
      (fun m => (hcounts m).1) (fun m => (hcounts m).2) fun m s hk hm => ?_
    rw [hmamba, if_neg]
    · exact hm
    · rintro rfl
      exact h.inv.not_locked hw (hw.snapshot_linked m s hm) hn s hk
  · intro s hs m
    rw [hmamba]
    split
    · nofun
    rename_i hmn
    cases hv : (e.cache.node n).mambaValue with
    | none =>
      rw [freeNodeMamba_none hv] at hs
      exact h.gone s hs m
    | some slot =>
      rw [(freeNodeMamba_some hv e.mambaSlots).2, List.mem_append, List.mem_singleton] at hs
      rcases hs with hs | rfl
      · exact h.gone s hs m
      · exact fun hm => hmn (hw.snapshot_inj m n s hm hv)

theorem evictionKeeps (locks : List Lock) : EvictionKeeps (Evicts locks) where
  drop := by
    intro e n hw _ _ href h
    obtain ⟨hinv, hgone⟩ := h.freeNodeMamba hw (.inl href)
    refine ⟨?_, ?_⟩
    · rw [dropLeaf_tree]
      generalize (e.cache.freeNodeMamba n e.mambaSlots).1.toRadixTree = t at hinv
      have hmod : ∀ {β : Type} (g : Node → β), (∀ x : Node, g { x with linked := false } = g x) →
          ∀ m, g ((t.unlink n).node m) = g (t.node m) :=
        fun g hg m => modify_field t n m g hg
      refine ⟨hinv.lt, refs_of (hinv.refInv.unlink n), fun m => ?_, fun m s hk => ?_⟩
      · rw [hmod Node.mambaRefCount fun _ => rfl]
        exact hinv.mambaRefs m
      · rw [hmod Node.mambaValue fun _ => rfl]
        exact hinv.live m s hk
    · intro s hs
      have hfree := hgone s hs
      rw [dropLeaf_tree]
      exact hfree.congr fun m => modify_field _ n m Node.mambaValue fun _ => rfl
  free := fun e n _ hw _ href h => by
    obtain ⟨hinv, hgone⟩ := h.freeNodeMamba hw (.inr href)
    exact ⟨hinv, hgone⟩
  freed := fun _ _ h => ⟨h.inv, h.gone⟩

theorem evicts_start {c : HybridRadixCache} (h : LockInv c.toRadixTree locks) :
    Evicts locks ⟨c, [], [], 0⟩ :=
  ⟨h, fun _ hs => absurd hs List.not_mem_nil⟩

-- ---------------------------------------------------------------------------
-- Taking and ending a lock
-- ---------------------------------------------------------------------------

/-- `c'` is `c` up to counts: lock counts grew by `refs` and snapshot counts by `mamba`. -/
structure Counted (c c' : RadixTree) (refs mamba : NodeId → Nat) : Prop
    extends SameShape c c' where
  refCount : ∀ m, (c'.node m).refCount = (c.node m).refCount + refs m
  mambaRefCount : ∀ m, (c'.node m).mambaRefCount = (c.node m).mambaRefCount + mamba m
  mambaValue : ∀ m, (c'.node m).mambaValue = (c.node m).mambaValue
  pooledSums : ∀ m, (c'.node m).pooledSums = (c.node m).pooledSums

theorem Counted.refl (c : RadixTree) : Counted c c (fun _ => 0) fun _ => 0 :=
  ⟨.refl c, fun _ => rfl, fun _ => rfl, fun _ => rfl, fun _ => rfl⟩

theorem Counted.trans {c c' c'' : RadixTree} {f f' g g' : NodeId → Nat} (h : Counted c c' f g)
    (h' : Counted c' c'' f' g') :
    Counted c c'' (fun m => f m + f' m) fun m => g m + g' m where
  toSameShape := h.toSameShape.trans h'.toSameShape
  refCount := fun m => by rw [h'.refCount, h.refCount, Nat.add_assoc]
  mambaRefCount := fun m => by rw [h'.mambaRefCount, h.mambaRefCount, Nat.add_assoc]
  mambaValue := fun m => (h'.mambaValue m).trans (h.mambaValue m)
  pooledSums := fun m => (h'.pooledSums m).trans (h.pooledSums m)

theorem Counted.congr {c c' : RadixTree} {f f' g g' : NodeId → Nat} (h : Counted c c' f g)
    (hf : ∀ m, f m = f' m) (hg : ∀ m, g m = g' m) : Counted c c' f' g' := by
  rw [← funext hf, ← funext hg]
  exact h

/-- A change of counts keeps the tree invariant. -/
theorem Counted.wf {c c' : RadixTree} {f g : NodeId → Nat} (hc : Counted c c' f g) (hw : c.Wf) :
    c'.Wf :=
  hw.congr hc.toSameShape fun m s hm => by rwa [hc.mambaValue] at hm

theorem Counted.wf_symm {c c' : RadixTree} {f g : NodeId → Nat} (hc : Counted c' c f g)
    (hw : c.Wf) : c'.Wf :=
  hw.congr hc.toSameShape.symm fun m s hm => by rwa [hc.mambaValue]

variable {c c' : HybridRadixCache}

/-- One at `n`, nothing elsewhere. -/
def at1 (n m : NodeId) : Nat := if m = n then 1 else 0

/-- What a count change leaves alone. -/
structure Recounts (f : Node → Node) : Prop where
  parent : ∀ x, (f x).parent = x.parent
  linked : ∀ x, (f x).linked = x.linked
  key : ∀ x, (f x).key = x.key
  value : ∀ x, (f x).value = x.value
  mambaValue : ∀ x, (f x).mambaValue = x.mambaValue
  pooledSums : ∀ x, (f x).pooledSums = x.pooledSums

theorem counted_up {f : Node → Node} (hf : Recounts f) {r q : Nat}
    (hr : ∀ x, (f x).refCount = x.refCount + r)
    (hq : ∀ x, (f x).mambaRefCount = x.mambaRefCount + q) (t : RadixTree) (n : NodeId) :
    Counted t (t.modify n f) (fun m => r * at1 n m) fun m => q * at1 n m where
  toSameShape := .modify t n hf.parent hf.linked hf.key hf.value
  refCount := fun m => by
    rw [modify_node, at1]
    split
    · rw [hr, Nat.mul_one]
    · rfl
  mambaRefCount := fun m => by
    rw [modify_node, at1]
    split
    · rw [hq, Nat.mul_one]
    · rfl
  mambaValue := fun m => modify_field t n m Node.mambaValue hf.mambaValue
  pooledSums := fun m => modify_field t n m Node.pooledSums hf.pooledSums

theorem counted_down {f : Node → Node} (hf : Recounts f) {t : RadixTree} {n : NodeId} {r q : Nat}
    (hr : (t.node n).refCount = (f (t.node n)).refCount + r)
    (hq : (t.node n).mambaRefCount = (f (t.node n)).mambaRefCount + q) :
    Counted (t.modify n f) t (fun m => r * at1 n m) fun m => q * at1 n m where
  pageSize := rfl
  next := rfl
  parent := fun m => (modify_field t n m Node.parent hf.parent).symm
  linked := fun m => (modify_field t n m Node.linked hf.linked).symm
  key := fun m => (modify_field t n m Node.key hf.key).symm
  value := fun m => (modify_field t n m Node.value hf.value).symm
  refCount := fun m => by
    rw [modify_node, at1]
    split
    · rename_i hm
      rw [hm, hr, Nat.mul_one]
    · rfl
  mambaRefCount := fun m => by
    rw [modify_node, at1]
    split
    · rename_i hm
      rw [hm, hq, Nat.mul_one]
    · rfl
  mambaValue := fun m => (modify_field t n m Node.mambaValue hf.mambaValue).symm
  pooledSums := fun m => (modify_field t n m Node.pooledSums hf.pooledSums).symm

theorem recounts_addRef : Recounts Node.addRef :=
  ⟨fun _ => rfl, fun _ => rfl, fun _ => rfl, fun _ => rfl, fun _ => rfl, fun _ => rfl⟩

theorem recounts_dropRef : Recounts Node.dropRef :=
  ⟨fun _ => rfl, fun _ => rfl, fun _ => rfl, fun _ => rfl, fun _ => rfl, fun _ => rfl⟩

theorem recounts_addMambaRef : Recounts Node.addMambaRef :=
  ⟨fun _ => rfl, fun _ => rfl, fun _ => rfl, fun _ => rfl, fun _ => rfl, fun _ => rfl⟩

theorem recounts_dropMambaRef : Recounts Node.dropMambaRef :=
  ⟨fun _ => rfl, fun _ => rfl, fun _ => rfl, fun _ => rfl, fun _ => rfl, fun _ => rfl⟩

theorem counted_incRef (c : HybridRadixCache) (n : NodeId) :
    Counted c.toRadixTree (c.incRef n).toRadixTree (at1 n) fun _ => 0 :=
  (counted_up recounts_addRef (r := 1) (q := 0) (fun _ => rfl) (fun _ => rfl) _ n).congr
    (fun _ => Nat.one_mul _) fun _ => Nat.zero_mul _

theorem counted_incMambaRef (c : HybridRadixCache) (n : NodeId) :
    Counted c.toRadixTree (c.incMambaRef n).toRadixTree (fun _ => 0) (at1 n) :=
  (counted_up recounts_addMambaRef (r := 0) (q := 1) (fun _ => rfl) (fun _ => rfl) _ n).congr
    (fun _ => Nat.zero_mul _) fun _ => Nat.one_mul _

theorem counted_decRef (hdec : c.decRef n = some c') :
    Counted c'.toRadixTree c.toRadixTree (at1 n) fun _ => 0 := by
  rw [decRef] at hdec
  split at hdec
  · cases hdec
  rename_i hpos
  cases hdec
  have hr : (c.node n).refCount = (c.node n).dropRef.refCount + 1 := by
    show _ = (c.node n).refCount - 1 + 1
    omega
  exact (counted_down recounts_dropRef hr rfl).congr (fun _ => Nat.one_mul _)
    fun _ => Nat.zero_mul _

theorem counted_decMambaRef (hpos : 0 < (c.node n).mambaRefCount) :
    Counted (c.decMambaRef n).toRadixTree c.toRadixTree (fun _ => 0) (at1 n) := by
  have hq : (c.node n).mambaRefCount = (c.node n).dropMambaRef.mambaRefCount + 1 := by
    show _ = (c.node n).mambaRefCount - 1 + 1
    omega
  exact (counted_down recounts_dropMambaRef rfl hq).congr (fun _ => Nat.zero_mul _)
    fun _ => Nat.one_mul _

theorem count_cons_at1 (a : NodeId) (l : List NodeId) (m : NodeId) :
    (a :: l).count m = at1 a m + l.count m := by
  rw [List.count_cons, at1, Nat.add_comm]
  by_cases h : m = a
  · simp [h]
  · simp [h, Ne.symm h]

section Rounds

variable {κ : Type*} {f : κ → RadixTree} {round : κ → NodeId → κ} {roundM : κ → NodeId → Option κ}
  {x x' : κ}

/-- A loop over a path whose rounds count one up. -/
theorem counted_foldl (hup : ∀ x a, Counted (f x) (f (round x a)) (at1 a) fun _ => 0)
    (l : List NodeId) (x : κ) :
    Counted (f x) (f (l.foldl round x)) (fun m => l.count m) fun _ => 0 := by
  induction l generalizing x with
  | nil => exact .refl _
  | cons a l ih =>
    have h := (hup x a).trans (ih (round x a))
    exact h.congr (fun m => (count_cons_at1 a l m).symm) fun _ => rfl

/-- A loop over a path whose rounds count one down. -/
theorem counted_foldlM
    (hdown : ∀ x a x', roundM x a = some x' → Counted (f x') (f x) (at1 a) fun _ => 0)
    {l : List NodeId} (h : l.foldlM roundM x = some x') :
    Counted (f x') (f x) (fun m => l.count m) fun _ => 0 := by
  induction l generalizing x with
  | nil =>
    cases h
    exact .refl _
  | cons a l ih =>
    rw [List.foldlM_cons] at h
    obtain ⟨y, hy, h⟩ := Option.bind_eq_some_iff.mp h
    have h := (ih h).trans (hdown x a y hy)
    exact h.congr (fun m => by rw [count_cons_at1, Nat.add_comm]) fun _ => rfl

/-- On a path without repetitions the rounds of an unlock do not meet. -/
theorem foldlM_isSome
    (hdown : ∀ x a x', roundM x a = some x' → Counted (f x') (f x) (at1 a) fun _ => 0)
    (hpos : ∀ x a, 0 < ((f x).node a).refCount → (roundM x a).isSome) {l : List NodeId}
    (hnd : l.Nodup) (hl : ∀ m ∈ l, 0 < ((f x).node m).refCount) : (l.foldlM roundM x).isSome := by
  induction l generalizing x with
  | nil => rfl
  | cons a l ih =>
    obtain ⟨ha, hnd⟩ := List.nodup_cons.mp hnd
    obtain ⟨y, hy⟩ := Option.isSome_iff_exists.mp (hpos x a (hl a List.mem_cons_self))
    rw [List.foldlM_cons, hy]
    refine ih hnd fun m hm => ?_
    have hne : m ≠ a := by
      rintro rfl
      exact ha hm
    have hcount := (hdown x a y hy).refCount m
    rw [at1, if_neg hne, Nat.add_zero] at hcount
    rw [← hcount]
    exact hl m (List.mem_cons_of_mem _ hm)

end Rounds

theorem counted_foldl_incRef (l : List NodeId) (c : HybridRadixCache) :
    Counted c.toRadixTree (l.foldl incRef c).toRadixTree (fun m => l.count m) fun _ => 0 :=
  counted_foldl counted_incRef l c

theorem counted_foldlM_decRef {l : List NodeId} (hdec : l.foldlM decRef c = some c') :
    Counted c'.toRadixTree c.toRadixTree (fun m => l.count m) fun _ => 0 :=
  counted_foldlM (f := fun c : HybridRadixCache => c.toRadixTree)
    (fun _ _ _ h => counted_decRef h) hdec

/-- `inc_lock`: one more on every node of the path, and on a live snapshot. -/
theorem counted_incLock (c : HybridRadixCache) (n : NodeId) :
    Counted c.toRadixTree (c.incLock n).toRadixTree (fun m => (c.rootPath n).count m)
      fun m => if (c.node n).mambaValue.isSome then at1 n m else 0 := by
  rw [HybridRadixCache.incLock]
  by_cases hs : (c.node n).mambaValue.isSome
  · rw [if_pos hs]
    have h := counted_incMambaRef c n
    have h' := h.trans (counted_foldl_incRef ((c.incMambaRef n).rootPath n) (c.incMambaRef n))
    refine h'.congr (fun m => ?_) fun m => (if_pos hs).symm
    rw [h.rootPath_eq, Nat.zero_add]
  · rw [if_neg hs]
    exact (counted_foldl_incRef _ _).congr (fun _ => rfl) fun m => (if_neg hs).symm

theorem pos_of_givesBack (h : c.givesBack n = true) : 0 < (c.node n).mambaRefCount := by
  rw [givesBack, Bool.and_eq_true, decide_eq_true_iff] at h
  exact h.2

/-- `dec_lock`: one less on every node of the path, and on the snapshot it gives back. -/
theorem counted_decLock (hdec : c.decLock n = some c') :
    Counted c'.toRadixTree c.toRadixTree (fun m => (c.rootPath n).count m)
      fun m => if c.givesBack n then at1 n m else 0 := by
  rw [HybridRadixCache.decLock] at hdec
  by_cases hg : c.givesBack n
  · rw [if_pos hg] at hdec
    have h := counted_decMambaRef (pos_of_givesBack hg)
    have h' := (counted_foldlM_decRef hdec).trans h
    refine h'.congr (fun m => ?_) fun m => ?_
    · rw [h.rootPath_eq, Nat.add_zero]
    · rw [if_pos hg, Nat.zero_add]
  · rw [if_neg hg] at hdec
    exact (counted_foldlM_decRef hdec).congr (fun _ => rfl) fun m => (if_neg hg).symm

theorem incLock (h : LockInv c.toRadixTree locks) (hw : c.Wf) (hn : n < c.next) :
    LockInv (c.incLock n).toRadixTree ((n, (c.node n).mambaValue) :: locks) := by
  have hc := counted_incLock c n
  refine ⟨fun k hk => ?_, refs_of (h.refInv.inc hw hn hc.toSameShape hc.refCount), fun m => ?_,
    fun m s hk => ?_⟩
  · rw [hc.next]
    rcases List.mem_cons.mp hk with rfl | hk
    · exact hn
    · exact h.lt k hk
  · rw [hc.mambaRefCount, h.mambaRefs, List.countP_cons]
    simp only [at1, Bool.decide_and, Bool.and_eq_true, decide_eq_true_iff, Nat.add_left_cancel_iff]
    by_cases hs : (c.node n).mambaValue.isSome
    · by_cases hm : m = n
      · simp [hs, hm]
      · simp [hs, hm, Ne.symm hm]
    · simp [hs]
  · rw [hc.mambaValue]
    rcases List.mem_cons.mp hk with he | hk
    · rw [Prod.mk.injEq] at he
      rw [he.1, he.2]
    · exact h.live m s hk

/-- Ending the lock gives back a snapshot reference exactly when it took one. -/
def Settles (c : HybridRadixCache) (k : Lock) : Prop := c.givesBack k.1 = k.2.isSome

theorem decLock {i : Nat} {k : Lock} (h : LockInv c.toRadixTree locks) (hw : c.Wf)
    (hk : locks[i]? = some k) (hset : Settles c k) (hdec : c.decLock k.1 = some c') :
    LockInv c'.toRadixTree (locks.eraseIdx i) := by
  have hc := counted_decLock hdec
  obtain ⟨hi, hki⟩ := List.getElem?_eq_some_iff.mp hk
  have hperm : (k :: locks.eraseIdx i).Perm locks := by
    rw [← hki]
    exact List.getElem_cons_eraseIdx_perm hi
  have hrefs := (h.refInv.perm (hperm.map Prod.fst)).dec hw hc.toSameShape fun m => by
    rw [hc.refCount, hc.rootPath_eq]
  refine ⟨fun k' hk' => ?_, refs_of hrefs, fun m => ?_, fun m s hk' => ?_⟩
  · rw [← hc.next]
    exact h.lt k' (List.mem_of_mem_eraseIdx hk')
  · have href := h.mambaRefs m
    rw [← hperm.countP_eq, List.countP_cons, hc.mambaRefCount, hset] at href
    refine Nat.add_right_cancel (href.trans ?_)
    by_cases hs : k.2.isSome
    · by_cases hm : m = k.1
      · simp [hs, hm, at1]
      · simp [hs, hm, Ne.symm hm, at1]
    · simp [hs]
  · rw [← hc.mambaValue]
    exact h.live m s (List.mem_of_mem_eraseIdx hk')

/-- A lock on a live snapshot always gives its reference back. -/
theorem givesBack_of_live {k : Lock} {s : Slot} (h : LockInv c.toRadixTree locks) (hk : k ∈ locks)
    (hs : k.2 = some s) : c.givesBack k.1 = true := by
  obtain ⟨n, o⟩ := k
  cases hs
  rw [givesBack, h.live n s hk, h.mambaRefs]
  have hpos : 0 < locks.countP fun k => k.1 = n ∧ k.2.isSome :=
    List.countP_pos_iff.mpr ⟨_, hk, by simp⟩
  rw [decide_eq_true hpos]
  rfl

/-- `dec_lock`'s assertion holds for every outstanding lock. -/
theorem decLock_isSome {k : Lock} (h : LockInv c.toRadixTree locks) (hw : c.Wf) (hk : k ∈ locks) :
    (c.decLock k.1).isSome := by
  have key : ∀ (d : HybridRadixCache), (∀ m ∈ c.rootPath k.1, 0 < (d.node m).refCount) →
      ((c.rootPath k.1).foldlM decRef d).isSome := fun d hd =>
    foldlM_isSome (f := fun c : HybridRadixCache => c.toRadixTree)
      (fun _ _ _ h => counted_decRef h) (fun d a ha => by
        rw [decRef, if_neg (Nat.ne_of_gt ha)]
        rfl) (hw.upPath _).nodup hd
  have hpos : ∀ m ∈ c.rootPath k.1, 0 < (c.node m).refCount := by
    intro m hm
    obtain ⟨hlt, hroot⟩ := hw.mem_rootPath_lt hm
    rw [h.refs m hlt hroot]
    exact List.countP_pos_iff.mpr ⟨k, hk, decide_eq_true hm⟩
  rw [HybridRadixCache.decLock]
  by_cases hg : c.givesBack k.1
  · rw [if_pos hg]
    have hcd := counted_decMambaRef (pos_of_givesBack hg)
    rw [← hcd.rootPath_eq]
    refine key _ fun m hm => ?_
    have hcount := hcd.refCount m
    rw [Nat.add_zero] at hcount
    rw [← hcount]
    exact hpos m hm
  · rw [if_neg hg]
    exact key _ hpos

end LockInv

end FreeToken.KvCache
