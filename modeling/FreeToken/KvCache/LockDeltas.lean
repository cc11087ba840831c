import FreeToken.KvCache.HandleRuns

/-!
# What a lock takes out of the budget

`scheduler/cache.py` predicts what `lock` will take out of `available_size`
(`lock_delta`) and out of `mamba_available_size` (`mamba_lock_delta`) by counting
the unlocked nodes above a handle. The loops of the three caches move exactly these
nodes, each once, and the loop of an unlock right after moves them back.

## Results

* `foldl_locks`, `foldlM_unlocks` — the two loops, for any cache;
* `RadixPrefixCache.lock_unlock`, `SWARadixCache.lock_unlock`,
  `HybridRadixCache.lock_unlock` — the three caches.
-/

namespace FreeToken.KvCache

open FreeToken.Lib RadixTree LockInv

namespace RadixTree

/-- The tokens of `m`, unless it is locked. -/
def unlockedLen (t : RadixTree) (m : NodeId) : Nat :=
  if (t.node m).refCount = 0 then (t.node m).length else 0

/-- `lock_delta` of a handle on `n`; also what `session_restore_footprint` counts. -/
def lockDelta (t : RadixTree) (n : NodeId) : Nat := ((t.rootPath n).map t.unlockedLen).sum

/-- `t'` is `t` up to ids, stamps and snapshots; lock counts grew by `refs`. -/
structure RefCounted (t t' : RadixTree) (refs : NodeId → Nat) : Prop extends SameShape t t' where
  refCount : ∀ m, (t'.node m).refCount = (t.node m).refCount + refs m

variable {t t' t'' : RadixTree} {refs refs' : NodeId → Nat}

theorem RefCounted.refl (t : RadixTree) : RefCounted t t fun _ => 0 := ⟨.refl t, fun _ => rfl⟩

theorem RefCounted.trans (h : RefCounted t t' refs) (h' : RefCounted t' t'' refs') :
    RefCounted t t'' fun m => refs m + refs' m :=
  ⟨h.toSameShape.trans h'.toSameShape, fun m => by rw [h'.refCount, h.refCount, Nat.add_assoc]⟩

theorem RefCounted.congr (h : RefCounted t t' refs) (hr : ∀ m, refs m = refs' m) :
    RefCounted t t' refs' :=
  funext hr ▸ h

theorem unlockedLen_congr {m : NodeId} (hk : (t'.node m).key = (t.node m).key)
    (hr : (t'.node m).refCount = (t.node m).refCount) : t'.unlockedLen m = t.unlockedLen m := by
  rw [unlockedLen, unlockedLen, hr, Node.length, Node.length, hk]

theorem lockDelta_congr (hs : SameShape t t') {n : NodeId}
    (hr : ∀ m ∈ t.rootPath n, (t'.node m).refCount = (t.node m).refCount) :
    t'.lockDelta n = t.lockDelta n := by
  rw [lockDelta, lockDelta, hs.rootPath_eq]
  exact congrArg List.sum (List.map_congr_left fun m hm => unlockedLen_congr (hs.key m) (hr m hm))

theorem RefCounted.unlockedLen (h : RefCounted t t' refs) {m : NodeId} (hm : refs m = 0) :
    t'.unlockedLen m = t.unlockedLen m :=
  unlockedLen_congr (h.key m) (by rw [h.refCount, hm, Nat.add_zero])

end RadixTree

-- ---------------------------------------------------------------------------
-- The two loops
-- ---------------------------------------------------------------------------

section Rounds

variable {κ : Type*} {f : κ → RadixTree} {g : κ → ℤ} {round : κ → NodeId → κ}
  {roundM : κ → NodeId → Option κ} {l : List NodeId} {x : κ}

/-- A round of a lock: one more on its node, which leaves the gauge unless it was locked. -/
def LocksNode (f : κ → RadixTree) (g : κ → ℤ) (x y : κ) (a : NodeId) : Prop :=
  RefCounted (f x) (f y) (at1 a) ∧ g y = g x - (f x).unlockedLen a

/-- A round of an unlock is a round of a lock backwards. -/
def Unlocks (f : κ → RadixTree) (g : κ → ℤ) (roundM : κ → NodeId → Option κ) : Prop :=
  ∀ x a, 0 < ((f x).node a).refCount → ∃ y, roundM x a = some y ∧ LocksNode f g y x a

theorem at1_of_not_mem {a m : NodeId} (hm : m ≠ a) : at1 a m = 0 := if_neg hm

/-- The loop of a lock over a path takes its unlocked tokens out of the gauge. -/
theorem foldl_locks (hround : ∀ x a, LocksNode f g x (round x a) a) (hnd : l.Nodup) (x : κ) :
    RefCounted (f x) (f (l.foldl round x)) (fun m => l.count m) ∧
      g (l.foldl round x) = g x - ((l.map (f x).unlockedLen).sum : ℕ) := by
  induction l generalizing x with
  | nil => exact ⟨.refl _, (sub_zero _).symm⟩
  | cons a l ih =>
    obtain ⟨ha, hnd⟩ := List.nodup_cons.mp hnd
    obtain ⟨hc, hg⟩ := hround x a
    obtain ⟨hcl, hgl⟩ := ih hnd (round x a)
    refine ⟨(hc.trans hcl).congr fun m => (count_cons_at1 a l m).symm, ?_⟩
    -- the round at `a` leaves the rest of the path as it was
    have hrest : l.map (f (round x a)).unlockedLen = l.map (f x).unlockedLen :=
      List.map_congr_left fun m hm => hc.unlockedLen (at1_of_not_mem fun he => ha (he ▸ hm))
    rw [hrest, hg] at hgl
    rw [List.foldl_cons, hgl, List.map_cons, List.sum_cons]
    omega

/-- The loop of an unlock over locked nodes puts back what is unlocked then. -/
theorem foldlM_unlocks (hround : Unlocks f g roundM) (hnd : l.Nodup)
    (hl : ∀ m ∈ l, 0 < ((f x).node m).refCount) :
    ∃ y, l.foldlM roundM x = some y ∧ RefCounted (f y) (f x) (fun m => l.count m) ∧
      g y = g x + ((l.map (f y).unlockedLen).sum : ℕ) := by
  induction l generalizing x with
  | nil => exact ⟨x, rfl, .refl _, (add_zero _).symm⟩
  | cons a l ih =>
    obtain ⟨ha, hnd⟩ := List.nodup_cons.mp hnd
    obtain ⟨y, hy, hc, hg⟩ := hround x a (hl a List.mem_cons_self)
    have hlocked : ∀ m ∈ l, 0 < ((f y).node m).refCount := by
      intro m hm
      have hcount := hc.refCount m
      have hma : m ≠ a := fun he => ha (he ▸ hm)
      rw [at1_of_not_mem hma, Nat.add_zero] at hcount
      rw [← hcount]
      exact hl m (List.mem_cons_of_mem _ hm)
    obtain ⟨z, hz, hcl, hgl⟩ := ih hnd hlocked
    refine ⟨z, ?_, (hcl.trans hc).congr fun m => ?_, ?_⟩
    · rw [List.foldlM_cons, hy]
      exact hz
    · rw [count_cons_at1, Nat.add_comm]
    · have hhere : (f y).unlockedLen a = (f z).unlockedLen a :=
        hcl.unlockedLen (List.count_eq_zero.mpr ha)
      rw [hhere] at hg
      rw [hgl, List.map_cons, List.sum_cons]
      omega

/-- An unlock right after a lock puts the gauge back. -/
theorem unlock_restores {κ' : Type*} {f' : κ' → RadixTree} {g' : κ' → ℤ}
    {roundM : κ' → NodeId → Option κ'} (hround : ∀ x a, LocksNode f g x (round x a) a)
    (hroundM : Unlocks f' g' roundM) (hnd : l.Nodup) {y : κ'}
    (hf : f' y = f (l.foldl round x)) (hg : g' y = g (l.foldl round x)) :
    ∃ z, l.foldlM roundM y = some z ∧ g' z = g x := by
  obtain ⟨hc, hgl⟩ := foldl_locks hround hnd x
  have hlocked : ∀ m ∈ l, 0 < ((f' y).node m).refCount := fun m hm => by
    rw [hf, hc.refCount]
    exact Nat.add_pos_right _ (List.count_pos_iff.mpr hm)
  obtain ⟨z, hz, hcz, hgz⟩ := foldlM_unlocks hroundM hnd hlocked
  rw [hf] at hcz
  -- the counts are back, so what is unlocked now was unlocked before
  have hlen : l.map (f' z).unlockedLen = l.map (f x).unlockedLen :=
    List.map_congr_left fun m _ => unlockedLen_congr ((hcz.key m).symm.trans (hc.key m))
      (Nat.add_right_cancel ((hcz.refCount m).symm.trans (hc.refCount m)))
  refine ⟨z, hz, ?_⟩
  rw [hgz, hg, hgl, hlen, sub_add_cancel]

end Rounds

-- ---------------------------------------------------------------------------
-- The three caches
-- ---------------------------------------------------------------------------

theorem counted_refs {t t' : RadixTree} {refs mamba : NodeId → Nat}
    (h : Counted t t' refs mamba) : RefCounted t t' refs :=
  ⟨h.toSameShape, h.refCount⟩

theorem swaCounted_refs {t t' : RadixTree} {refs swa : NodeId → Nat}
    (h : SwaCounted t t' refs swa) : RefCounted t t' refs :=
  ⟨h.sameShape, fun m => (h.node m).refCount⟩

/-- What the first lock on a node takes. -/
theorem first_lock (t : RadixTree) (a : NodeId) :
    (if (t.node a).refCount = 0 then ((t.node a).length : ℤ) else 0) = t.unlockedLen a := by
  rw [unlockedLen]
  split <;> rfl

/-- What the last unlock of a node gives. -/
theorem last_unlock {t t' : RadixTree} {a : NodeId} (h : RefCounted t t' (at1 a)) :
    (if (t'.node a).refCount = 1 then ((t'.node a).length : ℤ) else 0) = t.unlockedLen a := by
  rw [← first_lock, h.refCount, at1, if_pos rfl, Node.length, Node.length, h.key]
  exact if_congr (by omega) rfl rfl

namespace RadixPrefixCache

theorem locksNode (c : RadixPrefixCache) (a : NodeId) :
    LocksNode toRadixTree evictableSize c (c.lockNode a) a :=
  ⟨counted_refs (counted_lockNode c a), congrArg (c.evictableSize - ·) (first_lock _ a)⟩

theorem unlocks : Unlocks toRadixTree evictableSize unlockNode := by
  intro c a hpos
  obtain ⟨y, hy, hg⟩ : ∃ y, c.unlockNode a = some y ∧ y.evictableSize = c.evictableSize +
      if (c.node a).refCount = 1 then ((c.node a).length : ℤ) else 0 :=
    ⟨_, if_neg (Nat.ne_of_gt hpos), rfl⟩
  have hc := counted_refs (counted_unlockNode hy)
  rw [last_unlock hc] at hg
  exact ⟨y, hy, hc, by omega⟩

end RadixPrefixCache

namespace HybridRadixCache

theorem locksNode (c : HybridRadixCache) (a : NodeId) :
    LocksNode toRadixTree fullEvictable c (c.incRef a) a :=
  ⟨counted_refs (counted_incRef c a), congrArg (c.fullEvictable - ·) (first_lock _ a)⟩

theorem unlocks : Unlocks toRadixTree fullEvictable decRef := by
  intro c a hpos
  obtain ⟨y, hy, hg⟩ : ∃ y, c.decRef a = some y ∧ y.fullEvictable = c.fullEvictable +
      if (c.node a).refCount = 1 then ((c.node a).length : ℤ) else 0 :=
    ⟨_, if_neg (Nat.ne_of_gt hpos), rfl⟩
  have hc := counted_refs (counted_decRef hy)
  rw [last_unlock hc] at hg
  exact ⟨y, hy, hc, by omega⟩

end HybridRadixCache

namespace SWARadixCache

theorem locksNode (s : SWARadixCache × Option Nat × Nat) (a : NodeId) :
    LocksNode (fun s => s.1.toRadixTree) (fun s => s.1.fullEvictable) s (incLockAt s a) a := by
  obtain ⟨c, uuid, locked⟩ := s
  have hfull := counted_incFullRef c a
  have hgauge : (c.incFullRef a).fullEvictable = c.fullEvictable - c.unlockedLen a :=
    congrArg (c.fullEvictable - ·) (first_lock _ a)
  have hzero : ∀ m, at1 a m + 0 = at1 a m := fun _ => rfl
  rw [incLockAt]
  dsimp only
  split
  · have hswa := hfull.trans (counted_incSwaRef (c.incFullRef a) a)
    split
    · -- the window ends here, and gets its id
      have hmark := hswa.trans (counted_markBoundary ((c.incFullRef a).incSwaRef a) a)
      refine ⟨swaCounted_refs hmark, ?_⟩
      have hkeep : (((c.incFullRef a).incSwaRef a).markBoundary a).1.fullEvictable =
          (c.incFullRef a).fullEvictable := by
        rw [markBoundary]
        split <;> rfl
      exact hkeep.trans hgauge
    · exact ⟨swaCounted_refs hswa, hgauge⟩
  · exact ⟨swaCounted_refs hfull, hgauge⟩

theorem unlocks (uuid : Option Nat) : Unlocks (fun s : SWARadixCache × Bool => s.1.toRadixTree)
    (fun s => s.1.fullEvictable) (decLockAt uuid) := by
  rintro ⟨c, decSwa⟩ a hpos
  obtain ⟨d, hd, hg⟩ : ∃ d, c.decFullRef a = some d ∧ d.fullEvictable = c.fullEvictable +
      if (c.node a).refCount = 1 then ((c.node a).length : ℤ) else 0 :=
    ⟨_, if_neg (Nat.ne_of_gt hpos), rfl⟩
  have hc := counted_decFullRef hd
  rw [last_unlock (swaCounted_refs hc)] at hg
  rw [decLockAt, hd]
  refine ⟨_, rfl, ?_⟩
  dsimp only
  split
  · rename_i hswa
    simp only [Bool.and_eq_true, decide_eq_true_iff] at hswa
    have hboth := (counted_decSwaRef hswa.2).trans hc
    have hrefs := (swaCounted_refs hboth).congr fun m => Nat.zero_add (at1 a m)
    refine ⟨hrefs, ?_⟩
    have hlen : (d.decSwaRef a).unlockedLen a = d.unlockedLen a :=
      ((swaCounted_refs (counted_decSwaRef hswa.2)).unlockedLen (m := a) rfl).symm
    show c.fullEvictable = d.fullEvictable - (d.decSwaRef a).unlockedLen a
    rw [hlen]
    omega
  · exact ⟨swaCounted_refs hc, by dsimp only; omega⟩

end SWARadixCache

-- ---------------------------------------------------------------------------
-- Locks and unlocks
-- ---------------------------------------------------------------------------

/-- The part of `CacheManager` that `available_size` reads beside the cache. -/
structure PageBudget where
  freeSlots : List KvIndex
  numPages : Nat
  committedPages : Nat

/-- `available_size`, from what the cache has evictable. -/
def PageBudget.availableSize (b : PageBudget) (pageSize : Nat) (evictable : ℤ) : ℤ :=
  evictable + b.freeSlots.length * pageSize + ((b.numPages : ℤ) - b.committedPages) * pageSize

theorem PageBudget.availableSize_sub (b : PageBudget) (pageSize : Nat) (e e' : ℤ) :
    b.availableSize pageSize e - b.availableSize pageSize e' = e - e' := by
  rw [availableSize, availableSize]
  omega

namespace RadixPrefixCache

/-- `lock` takes `lock_delta` and `unlock` right after gives it back. -/
theorem lock_unlock {c : RadixPrefixCache} (hw : c.Wf) (handle : RadixCacheHandle) :
    ∃ d, c.lockHandle handle false = some d ∧
      c.evictableSize - d.evictableSize = c.lockDelta handle.node ∧
      ∃ e, d.lockHandle handle true = some e ∧ e.evictableSize = c.evictableSize := by
  have hnd := (hw.upPath handle.node).nodup
  obtain ⟨hc, hg⟩ := foldl_locks locksNode hnd c
  obtain ⟨e, he, hge⟩ := unlock_restores locksNode unlocks hnd (x := c) rfl rfl
  refine ⟨_, rfl, ?_, e, ?_, hge⟩
  · rw [hg, lockDelta, sub_sub_cancel]
  · rw [lockHandle, if_pos rfl, hc.rootPath_eq]
    exact he

end RadixPrefixCache

namespace SWARadixCache

theorem lock_unlock {c : SWARadixCache} (hw : c.SwaWf) (n : NodeId) :
    c.fullEvictable - (c.incLock n).1.fullEvictable = c.lockDelta n ∧
      ∃ d, (c.incLock n).1.decLock n (c.incLock n).2 false = some d ∧
        d.fullEvictable = c.fullEvictable := by
  have hnd := (hw.upPath n).nodup
  obtain ⟨hc, hg⟩ := foldl_locks locksNode hnd (c, none, 0)
  obtain ⟨e, he, hge⟩ := unlock_restores locksNode (unlocks (c.incLock n).2) hnd
    (x := (c, none, 0)) (y := ((c.incLock n).1, true)) rfl rfl
  refine ⟨?_, e.1, ?_, hge⟩
  · rw [incLock, hg, lockDelta, sub_sub_cancel]
  · rw [decLock, show (c.incLock n).1.rootPath n = c.rootPath n from hc.rootPath_eq n]
    exact congrArg (Option.map Prod.fst) he

end SWARadixCache

namespace HybridRadixCache

/-- `mamba_lock_delta`. -/
def mambaLockDelta (c : HybridRadixCache) (n : NodeId) : Nat :=
  if (c.node n).mambaValue.isSome ∧ (c.node n).mambaRefCount = 0 then 1 else 0

variable {c d : HybridRadixCache} {n : NodeId}

theorem foldl_incRef_mambaEvictable (l : List NodeId) (c : HybridRadixCache) :
    (l.foldl incRef c).mambaEvictable = c.mambaEvictable := by
  induction l generalizing c with
  | nil => rfl
  | cons a l ih => exact ih (c.incRef a)

theorem foldlM_decRef_mambaEvictable {l : List NodeId} (h : l.foldlM decRef c = some d) :
    d.mambaEvictable = c.mambaEvictable := by
  induction l generalizing c with
  | nil =>
    cases h
    rfl
  | cons a l ih =>
    rw [List.foldlM_cons] at h
    obtain ⟨e, he, h⟩ := Option.bind_eq_some_iff.mp h
    rw [decRef] at he
    split at he
    · cases he
    · cases he
      exact (ih h).trans rfl

/-- `inc_lock` on both gauges. -/
theorem incLock_gauges (hw : c.Wf) (n : NodeId) :
    (c.incLock n).fullEvictable = c.fullEvictable - c.lockDelta n ∧
      (c.incLock n).mambaEvictable = c.mambaEvictable - c.mambaLockDelta n := by
  have hnd := (hw.upPath n).nodup
  rw [incLock, mambaLockDelta, lockDelta]
  by_cases hs : (c.node n).mambaValue.isSome
  · rw [if_pos hs]
    have hc := counted_refs (counted_incMambaRef c n)
    have hlen : (c.rootPath n).map (c.incMambaRef n).unlockedLen =
        (c.rootPath n).map c.unlockedLen := List.map_congr_left fun m _ => hc.unlockedLen rfl
    refine ⟨?_, ?_⟩
    · rw [hc.rootPath_eq, (foldl_locks locksNode hnd (c.incMambaRef n)).2, hlen]
      rfl
    · rw [foldl_incRef_mambaEvictable, incMambaRef]
      simp only [hs, true_and]
      split <;> rfl
  · rw [if_neg hs, if_neg fun h => hs h.1]
    refine ⟨(foldl_locks locksNode hnd c).2, ?_⟩
    exact (foldl_incRef_mambaEvictable _ c).trans (sub_zero _).symm

/-- `dec_lock` of a locked path on both gauges. -/
theorem decLock_gauges (hw : c.Wf) (hl : ∀ m ∈ c.rootPath n, 0 < (c.node m).refCount) :
    ∃ d, c.decLock n = some d ∧ d.fullEvictable = c.fullEvictable + d.lockDelta n ∧
      d.mambaEvictable = c.mambaEvictable +
        if c.givesBack n = true ∧ (c.node n).mambaRefCount = 1 then 1 else 0 := by
  have hnd := (hw.upPath n).nodup
  rw [decLock]
  by_cases hg : c.givesBack n = true
  · rw [if_pos hg]
    have hc := counted_refs (counted_decMambaRef (pos_of_givesBack hg))
    have hl' : ∀ m ∈ c.rootPath n, 0 < ((c.decMambaRef n).node m).refCount := fun m hm => by
      have hcount := hc.refCount m
      rw [Nat.add_zero] at hcount
      rw [← hcount]
      exact hl m hm
    obtain ⟨d, hd, hcd, hgd⟩ := foldlM_unlocks unlocks (x := c.decMambaRef n) hnd hl'
    refine ⟨d, ?_, ?_, ?_⟩
    · rw [← hc.rootPath_eq]
      exact hd
    · rw [lockDelta, ← hcd.rootPath_eq, ← hc.rootPath_eq]
      exact hgd
    · rw [foldlM_decRef_mambaEvictable hd, decMambaRef]
      simp only [hg, true_and]
  · rw [if_neg hg, if_neg fun h => hg h.1]
    obtain ⟨d, hd, hcd, hgd⟩ := foldlM_unlocks unlocks (x := c) hnd hl
    refine ⟨d, hd, ?_, ?_⟩
    · rw [lockDelta, ← hcd.rootPath_eq]
      exact hgd
    · exact (foldlM_decRef_mambaEvictable hd).trans (add_zero _).symm

/-- A `dec_lock` that goes through gives back what is unlocked after it. -/
theorem decLock_full (hw : c.Wf) (hdec : c.decLock n = some d) :
    d.fullEvictable = c.fullEvictable + d.lockDelta n := by
  have hc := counted_decLock hdec
  have hl : ∀ m ∈ c.rootPath n, 0 < (c.node m).refCount := fun m hm => by
    rw [hc.refCount]
    exact Nat.add_pos_right _ (List.count_pos_iff.mpr hm)
  obtain ⟨e, he, hfull, -⟩ := decLock_gauges hw hl
  rw [hdec, Option.some.injEq] at he
  rw [he]
  exact hfull

theorem lock_unlock (hw : c.Wf) (n : NodeId) :
    c.fullEvictable - (c.incLock n).fullEvictable = c.lockDelta n ∧
      c.mambaEvictable - (c.incLock n).mambaEvictable = c.mambaLockDelta n ∧
      ∃ d, (c.incLock n).decLock n = some d ∧ d.fullEvictable = c.fullEvictable ∧
        d.mambaEvictable = c.mambaEvictable := by
  obtain ⟨hfull, hmamba⟩ := incLock_gauges hw n
  have hc := counted_incLock c n
  have hl : ∀ m ∈ (c.incLock n).rootPath n, 0 < ((c.incLock n).node m).refCount := fun m hm => by
    rw [hc.rootPath_eq] at hm
    rw [hc.refCount]
    exact Nat.add_pos_right _ (List.count_pos_iff.mpr hm)
  obtain ⟨d, hd, hfd, hmd⟩ := decLock_gauges (hc.wf hw) hl
  have hcd := counted_decLock hd
  refine ⟨by omega, by omega, d, hd, ?_, ?_⟩
  · have hdelta : d.lockDelta n = c.lockDelta n := by
      rw [lockDelta, lockDelta, ← hcd.rootPath_eq, hc.rootPath_eq]
      refine congrArg List.sum (List.map_congr_left fun m _ => ?_)
      refine unlockedLen_congr ((hcd.key m).symm.trans (hc.key m)) ?_
      have hup := hc.refCount m
      have hdown := hcd.refCount m
      rw [hc.rootPath_eq] at hdown
      omega
    omega
  · have hvalue := hc.mambaValue n
    have hcount := hc.mambaRefCount n
    rw [hmd, hmamba, givesBack, mambaLockDelta, hvalue, hcount]
    by_cases hs : (c.node n).mambaValue.isSome
    · by_cases hz : (c.node n).mambaRefCount = 0
      · simp [hs, hz, at1]
      · simp [hs, hz, at1]
    · simp [hs]

end HybridRadixCache

end FreeToken.KvCache
