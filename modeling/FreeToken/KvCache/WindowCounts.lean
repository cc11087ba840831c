import FreeToken.KvCache.SwaLocks

/-!
# Window counts

The outstanding locks of the window cache. The window of a lock is the front of its
node's path up to the node with its id; `swa_ref_count` is the number of locks with
the node, live, in their window. Which tokens a lock counted is written down when it is
taken, and stays what its window covers.

## Results

* `SwaRefs.steady`, `SwaRefs.splitAt`, `SwaRefs.incLock`, `SwaRefs.decLock` — every
  move keeps it;
* `booked_insertKeeps`, `booked_evictKeeps` — so do the calls.
-/

namespace FreeToken.KvCache

open FreeToken.Lib RadixTree LockInv SWARadixCache

/-- For each token of the path of `n`, whether its window count is one higher in `t'`. -/
def tokensRaised (t t' : RadixTree) (n : NodeId) : List Bool :=
  (t.rootPath n).reverse.flatMap fun m => List.replicate (t.node m).length
    (decide ((t'.node m).swaRefCount = (t.node m).swaRefCount + 1))

/-- An outstanding lock: what `inc_lock` was called with and returned, the pages of the
path then, and which of its tokens the lock counted in its window. -/
structure SwaLock where
  node : NodeId
  uuid : Option Nat
  indices : List KvIndex
  tokens : List Bool
  deriving DecidableEq, Repr

namespace SwaLock

/-- The lock `inc_lock` takes on `n`. -/
def taken (c : SWARadixCache) (n : NodeId) : SwaLock :=
  ⟨n, (c.incLock n).2, c.collectKv n,
    tokensRaised c.toRadixTree (c.incLock n).1.toRadixTree n⟩

variable (k : SwaLock) (t : RadixTree)

def window : List NodeId := upTo (ends t k.uuid) (t.rootPath k.node)

def covers (m : NodeId) : Bool := decide (m ∈ k.window t) && !(t.node m).swaTombstone

def marks : List Bool :=
  (t.rootPath k.node).reverse.flatMap fun m => List.replicate (t.node m).length (k.covers t m)

end SwaLock

/-- What holds of the counts while `locks` are outstanding. -/
structure SwaRefs (c : SWARadixCache) (locks : List SwaLock) : Prop where
  refs : RefInv c.toRadixTree (locks.map SwaLock.node)
  inTree : ∀ k ∈ locks, c.InTree k.node
  root : (c.node root).refCount = 1
  swaRefs : ∀ m < c.next,
    (c.node m).swaRefCount = locks.countP fun k => k.covers c.toRadixTree m
  tokens : ∀ k ∈ locks, k.tokens = k.marks c.toRadixTree
  boundary : ∀ k ∈ locks, ∀ m ∈ c.rootPath k.node, ends c.toRadixTree k.uuid m = true →
    (c.node m).swaTombstone = false
  uuid_inj : ∀ a < c.next, ∀ b < c.next, ∀ u, (c.node a).swaUuid = some u →
    (c.node b).swaUuid = some u → a = b
  uuid_le : ∀ m < c.next, ∀ u, (c.node m).swaUuid = some u → u ≤ c.uuid
  lock_le : ∀ k ∈ locks, ∀ u, k.uuid = some u → u ≤ c.uuid

variable {c c' d : SWARadixCache} {locks : List SwaLock} {k : SwaLock} {t t' : RadixTree}
  {n m : NodeId}

namespace SwaLock

theorem covers_iff : k.covers t m = true ↔ m ∈ k.window t ∧ (t.node m).swaTombstone = false := by
  rw [covers, Bool.and_eq_true, decide_eq_true_iff, Bool.not_eq_true']

theorem mem_of_covers (h : k.covers t m = true) : m ∈ t.rootPath k.node :=
  mem_of_mem_upTo (covers_iff.mp h).1

theorem window_congr (hpath : t'.rootPath k.node = t.rootPath k.node)
    (hends : ∀ m ∈ t.rootPath k.node, ends t' k.uuid m = ends t k.uuid m) :
    k.window t' = k.window t := by
  rw [window, window, hpath, upTo_congr hends]

theorem marks_congr (hpath : t'.rootPath k.node = t.rootPath k.node)
    (hlen : ∀ m ∈ t.rootPath k.node, (t'.node m).length = (t.node m).length)
    (hcov : ∀ m, k.covers t' m = k.covers t m) : k.marks t' = k.marks t := by
  rw [marks, marks, hpath]
  refine List.flatMap_congr fun m hm => ?_
  rw [hlen m (List.mem_reverse.mp hm), hcov]

end SwaLock

/-- Counts that grew by one on the nodes `b` marks. -/
theorem tokensRaised_eq {b : NodeId → Bool} (hb : ∀ m, (t'.node m).swaRefCount =
    (t.node m).swaRefCount + if b m = true then 1 else 0) (n : NodeId) :
    tokensRaised t t' n =
      (t.rootPath n).reverse.flatMap fun m => List.replicate (t.node m).length (b m) := by
  rw [tokensRaised]
  refine List.flatMap_congr fun m _ => ?_
  rw [hb]
  congr 1
  cases b m with
  | true => exact decide_eq_true rfl
  | false => exact decide_eq_false (Nat.ne_of_lt (Nat.lt_succ_self _))

theorem ends_iff {uuid : Option Nat} :
    ends t uuid m = true ↔ ∃ u, uuid = some u ∧ (t.node m).swaUuid = some u := by
  rw [ends, Bool.and_eq_true, decide_eq_true_iff, Option.isSome_iff_exists]
  constructor
  · rintro ⟨⟨u, hu⟩, h⟩
    exact ⟨u, hu, h.trans hu⟩
  · rintro ⟨u, hu, h⟩
    exact ⟨⟨u, hu⟩, h.trans hu.symm⟩

theorem ends_congr {uuid : Option Nat} (h : (t'.node m).swaUuid = (t.node m).swaUuid) :
    ends t' uuid m = ends t uuid m := by rw [ends, ends, h]

namespace SwaRefs

theorem empty (ps window : Nat) : SwaRefs (.empty ps window) [] where
  refs := .empty ps
  inTree := fun _ hk => absurd hk List.not_mem_nil
  root := rfl
  swaRefs := fun m _ => by
    show ((RadixTree.empty ps).node m).swaRefCount = 0
    rw [empty_node]
    split <;> rfl
  tokens := fun _ hk => absurd hk List.not_mem_nil
  boundary := fun _ hk => absurd hk List.not_mem_nil
  uuid_inj := fun a ha b hb _ _ _ => (Nat.lt_one_iff.mp ha).trans (Nat.lt_one_iff.mp hb).symm
  uuid_le := fun m _ u hu => by
    have hnone : ((RadixTree.empty ps).node m).swaUuid = none := by
      rw [empty_node]
      split <;> rfl
    exact absurd (hnone.symm.trans hu) (by nofun)
  lock_le := fun _ hk => absurd hk List.not_mem_nil

theorem swaRefCount_pos (h : SwaRefs c locks) (hw : c.Wf) (hk : k ∈ locks)
    (hcov : k.covers c.toRadixTree m = true) : 0 < (c.node m).swaRefCount := by
  rw [h.swaRefs m (hw.mem_rootPath_lt (SwaLock.mem_of_covers hcov)).1]
  exact List.countP_pos_iff.mpr ⟨k, hk, hcov⟩

theorem refCount_pos (h : SwaRefs c locks) (hw : c.Wf) (hk : k ∈ locks)
    (hm : m ∈ c.rootPath k.node) : 0 < (c.node m).refCount :=
  h.refs.refCount_pos hw (List.mem_map_of_mem hk) hm

/-- The node with the lock's id is the last of the window. -/
theorem mem_window_of_ends (h : SwaRefs c locks) (hw : c.Wf) (hm : m ∈ c.rootPath k.node)
    (he : ends c.toRadixTree k.uuid m = true) : m ∈ k.window c.toRadixTree := by
  refine mem_upTo_of_unique hm fun a ha hae => ?_
  obtain ⟨u, hu, hmu⟩ := ends_iff.mp he
  obtain ⟨v, hv, hav⟩ := ends_iff.mp hae
  rw [hu, Option.some.injEq] at hv
  subst hv
  exact h.uuid_inj a (hw.mem_rootPath_lt ha).1 m (hw.mem_rootPath_lt hm).1 u hav hmu

/-- A window lock is a lock. -/
theorem swaRefCount_le (h : SwaRefs c locks) (hw : c.Wf) (hm : m < c.next) :
    (c.node m).swaRefCount ≤ (c.node m).refCount := by
  by_cases hr : m = RadixTree.root
  · rw [h.swaRefs m hm, List.countP_eq_zero.mpr]
    · exact Nat.zero_le _
    · exact fun k _ hcov => (hw.mem_rootPath_lt (SwaLock.mem_of_covers hcov)).2 hr
  · rw [h.swaRefs m hm, h.refs.refs m hm hr, List.countP_map]
    refine List.countP_mono_left fun k _ hcov => ?_
    rw [Function.comp_apply, decide_eq_true_iff]
    exact SwaLock.mem_of_covers hcov

-- ---------------------------------------------------------------------------
-- Moves that no lock sees
-- ---------------------------------------------------------------------------

/-- A move that leaves what `locks` count alone. -/
structure Steady (c c' : SWARadixCache) (locks : List SwaLock) : Prop where
  next : c.next ≤ c'.next
  uuid : c'.uuid = c.uuid
  path : ∀ k ∈ locks, c'.rootPath k.node = c.rootPath k.node
  inTree : ∀ k ∈ locks, c'.InTree k.node
  refCount : ∀ m < c.next, (c'.node m).refCount = (c.node m).refCount
  swaRefCount : ∀ m < c.next, (c'.node m).swaRefCount = (c.node m).swaRefCount
  length : ∀ m < c.next, (c'.node m).length = (c.node m).length
  swaUuid : ∀ m < c.next, (c'.node m).swaUuid = (c.node m).swaUuid
  swaTombstone : ∀ k ∈ locks, ∀ m ∈ c.rootPath k.node,
    (c'.node m).swaTombstone = (c.node m).swaTombstone ∨
      (c.node m).swaRefCount = 0 ∧ (c'.node m).swaTombstone = true
  fresh : ∀ m, c.next ≤ m → m < c'.next → (c'.node m).refCount = 0 ∧
    (c'.node m).swaRefCount = 0 ∧ (c'.node m).swaUuid = none

theorem Steady.covers (hs : Steady c c' locks) (h : SwaRefs c locks) (hw : c.Wf) (hk : k ∈ locks)
    (m : NodeId) : k.covers c'.toRadixTree m = k.covers c.toRadixTree m := by
  have hwin : k.window c'.toRadixTree = k.window c.toRadixTree :=
    SwaLock.window_congr (hs.path k hk) fun m hm =>
      ends_congr (hs.swaUuid m (hw.mem_rootPath_lt hm).1)
  rw [SwaLock.covers, SwaLock.covers, hwin]
  by_cases hm : m ∈ k.window c.toRadixTree
  · rcases hs.swaTombstone k hk m (mem_of_mem_upTo hm) with heq | ⟨h0, htomb⟩
    · rw [heq]
    · -- a live node of the window is counted
      have hdead : (c.node m).swaTombstone = true := by
        by_contra hlive
        have := h.swaRefCount_pos hw hk (SwaLock.covers_iff.mpr ⟨hm, Bool.eq_false_iff.mpr hlive⟩)
        omega
      rw [htomb, hdead]
  · rw [decide_eq_false hm, Bool.false_and, Bool.false_and]

theorem steady (h : SwaRefs c locks) (hw : c.Wf) (hs : Steady c c' locks) : SwaRefs c' locks where
  refs := by
    refine ⟨fun k hk => Nat.lt_of_lt_of_le (h.refs.lt k hk) hs.next, fun m hm hr => ?_⟩
    have hcount : ((locks.map SwaLock.node).countP fun k => m ∈ c'.rootPath k) =
        (locks.map SwaLock.node).countP fun k => m ∈ c.rootPath k := by
      rw [List.countP_map, List.countP_map]
      refine List.countP_congr fun k hk => ?_
      rw [Function.comp_apply, Function.comp_apply, hs.path k hk]
    rw [hcount]
    by_cases hold : m < c.next
    · rw [hs.refCount m hold]
      exact h.refs.refs m hold hr
    · -- a fresh node is on the path of none of the locks
      rw [(hs.fresh m (Nat.le_of_not_lt hold) hm).1]
      refine (List.countP_eq_zero.mpr fun k _ hmem => hold ?_).symm
      exact (hw.mem_rootPath_lt (of_decide_eq_true hmem)).1
  inTree := hs.inTree
  root := (hs.refCount _ hw.root_lt).trans h.root
  swaRefs := by
    intro m hm
    have hcount : (locks.countP fun k => k.covers c'.toRadixTree m) =
        locks.countP fun k => k.covers c.toRadixTree m :=
      List.countP_congr fun k hk => by rw [hs.covers h hw hk]
    rw [hcount]
    by_cases hold : m < c.next
    · rw [hs.swaRefCount m hold]
      exact h.swaRefs m hold
    · rw [(hs.fresh m (Nat.le_of_not_lt hold) hm).2.1]
      refine (List.countP_eq_zero.mpr fun k _ hcov => hold ?_).symm
      exact (hw.mem_rootPath_lt (SwaLock.mem_of_covers hcov)).1
  tokens := by
    intro k hk
    rw [h.tokens k hk]
    refine (SwaLock.marks_congr (hs.path k hk) (fun m hm => ?_) (hs.covers h hw hk)).symm
    exact hs.length m (hw.mem_rootPath_lt hm).1
  boundary := by
    intro k hk m hm he
    rw [hs.path k hk] at hm
    rw [ends_congr (hs.swaUuid m (hw.mem_rootPath_lt hm).1)] at he
    have hlive := h.boundary k hk m hm he
    rcases hs.swaTombstone k hk m hm with heq | ⟨h0, -⟩
    · rw [heq, hlive]
    · -- it would be covered, so its window count is not zero
      have := h.swaRefCount_pos hw hk
        (SwaLock.covers_iff.mpr ⟨h.mem_window_of_ends hw hm he, hlive⟩)
      omega
  uuid_inj := by
    have hlt : ∀ a < c'.next, ∀ u, (c'.node a).swaUuid = some u →
        a < c.next ∧ (c.node a).swaUuid = some u := by
      intro a ha u hu
      have hold : a < c.next := by
        by_contra hnew
        rw [(hs.fresh a (Nat.le_of_not_lt hnew) ha).2.2] at hu
        cases hu
      exact ⟨hold, hs.swaUuid a hold ▸ hu⟩
    intro a ha b hb u hau hbu
    obtain ⟨ha, hau⟩ := hlt a ha u hau
    obtain ⟨hb, hbu⟩ := hlt b hb u hbu
    exact h.uuid_inj a ha b hb u hau hbu
  uuid_le := by
    intro m hm u hu
    rw [hs.uuid]
    by_cases hold : m < c.next
    · exact h.uuid_le m hold u (hs.swaUuid m hold ▸ hu)
    · rw [(hs.fresh m (Nat.le_of_not_lt hold) hm).2.2] at hu
      cases hu
  lock_le := by
    rw [hs.uuid]
    exact h.lock_le

/-- A move on the fields of one node that no path, key, id or count depends on. -/
theorem steady_modify (h : SwaRefs c locks) {f : Node → Node} (ht : c'.toRadixTree = c.modify n f)
    (hu : c'.uuid = c.uuid) (hparent : ∀ x, (f x).parent = x.parent)
    (hlinked : ∀ k ∈ locks, k.node = n → (f (c.node n)).linked = (c.node n).linked)
    (hlen : (f (c.node n)).length = (c.node n).length)
    (href : ∀ x, (f x).refCount = x.refCount) (hswa : ∀ x, (f x).swaRefCount = x.swaRefCount)
    (huuid : ∀ x, (f x).swaUuid = x.swaUuid)
    (htomb : ∀ k ∈ locks, n ∈ c.rootPath k.node →
      (f (c.node n)).swaTombstone = (c.node n).swaTombstone ∨
        (c.node n).swaRefCount = 0 ∧ (f (c.node n)).swaTombstone = true) :
    Steady c c' locks := by
  have hnode : ∀ m, c'.node m = if m = n then f (c.node m) else c.node m := fun m => by
    rw [ht, modify_node]
  have hfield : ∀ {β : Type} (g : Node → β), (∀ x, g (f x) = g x) →
      ∀ m, g (c'.node m) = g (c.node m) := fun g hg m => by
    rw [ht]
    exact modify_field _ n m g hg
  have hnext : c'.next = c.next := by rw [ht, modify_next]
  refine
    { next := Nat.le_of_eq hnext.symm, uuid := hu,
      path := fun k _ => by simp only [rootPath, hnext, hfield Node.parent hparent],
      inTree := fun k hk => ?_, refCount := fun m _ => hfield _ href m,
      swaRefCount := fun m _ => hfield _ hswa m, length := fun m _ => ?_,
      swaUuid := fun m _ => hfield _ huuid m, swaTombstone := fun k hk m hm => ?_,
      fresh := fun m hm hm' => absurd (hnext ▸ hm') (Nat.not_lt.mpr hm) }
  · refine (h.inTree k hk).imp_right fun hl => ?_
    rw [hnode]
    split
    · rename_i hkn
      rw [hkn, hlinked k hk hkn, ← hkn]
      exact hl
    · exact hl
  · rw [hnode]
    split
    · rename_i hmn
      rw [hmn, hlen]
    · rfl
  · rw [hnode]
    split
    · rename_i hmn
      rw [hmn] at hm ⊢
      exact htomb k hk hm
    · exact .inl rfl

theorem addChild_old {parent : NodeId} {ids : List Token} {kv : List KvIndex} {tombstone : Bool}
    {r : SWARadixCache × NodeId} (hadd : c.addChild parent ids kv tombstone = some r)
    (hm : m < c.next) : r.1.node m = c.node m := by
  have hne := Nat.ne_of_lt hm
  rw [addChild] at hadd
  split at hadd
  · cases hadd
  · cases hadd
    show (((c.toRadixTree.addLeaf parent ids kv _).1.modify c.next _).node m) = _
    rw [modify_node, if_neg hne]
    exact addLeaf_old _ _ m _ _ _ hne

/-- A child hangs below no lock. -/
theorem steady_addChild (h : SwaRefs c locks) (hw : c.Wf) {parent : NodeId} {ids : List Token}
    {kv : List KvIndex} {tombstone : Bool} {r : SWARadixCache × NodeId}
    (hc : c.ChildOk parent ids) (hadd : c.addChild parent ids kv tombstone = some r) :
    Steady c r.1 locks := by
  have hold : ∀ m < c.next, r.1.node m = c.node m := fun m hm => addChild_old hadd hm
  rw [addChild] at hadd
  by_cases hlen : kv.length = ids.length
  swap
  · rw [if_pos hlen] at hadd
    cases hadd
  rw [if_neg (not_not.mpr hlen), Option.some.injEq] at hadd
  subst hadd
  let leaf := (c.toRadixTree.addLeaf parent ids kv ((c.clk + 1) * eventStride)).1
  have hnew : leaf.node c.next = _ := addLeaf_new c.toRadixTree parent ids kv _
  have hlt : ∀ k ∈ locks, k.node < c.next := fun k hk => hw.inTree_lt (h.inTree k hk)
  refine
    { next := Nat.le_succ _, uuid := rfl, path := fun k hk => ?_, inTree := fun k hk => ?_,
      refCount := fun m hm => congrArg Node.refCount (hold m hm),
      swaRefCount := fun m hm => congrArg Node.swaRefCount (hold m hm),
      length := fun m hm => congrArg Node.length (hold m hm),
      swaUuid := fun m hm => congrArg Node.swaUuid (hold m hm),
      swaTombstone := fun k hk m hm =>
        .inl (congrArg Node.swaTombstone (hold m (hw.mem_rootPath_lt hm).1)),
      fresh := fun m hm hm' => ?_ }
  · have hshape : SameShape leaf (leaf.modify c.next (.setTombstone tombstone)) :=
      .modify leaf c.next (fun _ => rfl) (fun _ => rfl) (fun _ => rfl) fun _ => rfl
    refine (hshape.rootPath_eq k.node).trans ?_
    exact hw.rootPath_addLeaf ⟨hc.inTree, hc.pos, hc.pages, hlen, hc.fresh⟩
      (Nat.ne_of_lt (hlt k hk))
  · exact (h.inTree k hk).imp_right (congrArg Node.linked (hold _ (hlt k hk))).trans
  · have hm : m = c.next := Nat.le_antisymm (Nat.le_of_lt_succ hm') hm
    have hx : (leaf.modify c.next (.setTombstone tombstone)).node c.next =
        (leaf.node c.next).setTombstone tombstone := by
      rw [modify_node, if_pos rfl]
    rw [hnew] at hx
    rw [hm]
    exact ⟨congrArg Node.refCount hx, congrArg Node.swaRefCount hx, congrArg Node.swaUuid hx⟩

-- ---------------------------------------------------------------------------
-- Splits
-- ---------------------------------------------------------------------------

/-- The windows gain the new node where they have the old one. -/
theorem covers_splitAt (h : SwaRefs c locks) (hw : c.Wf) {pos : Nat} (hok : c.SplitOk n pos)
    (hk : k ∈ locks) : (k.covers (c.splitAt n pos).1 c.next = k.covers c.toRadixTree n) ∧
      ∀ m, m ≠ c.next → k.covers (c.splitAt n pos).1 m = k.covers c.toRadixTree m := by
  have hn : n ≠ c.next := Nat.ne_of_lt (hw.linked_lt hok.linked)
  have hkn : k.node ≠ c.next := Nat.ne_of_lt (hw.inTree_lt (h.inTree k hk))
  have hpath := ((hw.splitAt hok).upPath k.node).unique (hw.upPath_splitAt hok hkn)
  have hsuffix := splitAt_suffix c.toRadixTree n pos hn
  have hpre := splitAt_prefixLen c.toRadixTree n pos
  have hwin : k.window (c.splitAt n pos).1 =
      (k.window c.toRadixTree).flatMap fun a => if a = n then [n, c.next] else [a] := by
    rw [SwaLock.window, SwaLock.window, hpath]
    refine upTo_spliced ?_ ?_ fun a ha han => ?_
    · rw [ends, hsuffix]
      cases k.uuid <;> rfl
    · rw [ends, ends, hpre]
    · rw [ends, ends, splitAt_old _ n a pos han (Nat.ne_of_lt (hw.mem_rootPath_lt ha).1)]
  have hmem : ∀ a, a ∈ k.window (c.splitAt n pos).1 ↔
      a ∈ k.window c.toRadixTree ∨ a = c.next ∧ n ∈ k.window c.toRadixTree := fun a => by
    rw [hwin]
    exact mem_spliced
  have hnew : c.next ∉ k.window c.toRadixTree := fun hm =>
    Nat.lt_irrefl _ (hw.mem_rootPath_lt (mem_of_mem_upTo hm)).1
  constructor
  · rw [SwaLock.covers, SwaLock.covers, hpre]
    congr 1
    exact decide_eq_decide.mpr ((hmem _).trans ⟨fun hm => (hm.resolve_left hnew).2,
      fun hm => .inr ⟨rfl, hm⟩⟩)
  · intro m hm
    have htomb : ((c.splitAt n pos).1.node m).swaTombstone = (c.node m).swaTombstone := by
      by_cases hmn : m = n
      · rw [hmn, hsuffix]
      · rw [splitAt_old _ n m pos hmn hm]
    rw [SwaLock.covers, SwaLock.covers, htomb]
    congr 1
    exact decide_eq_decide.mpr ((hmem _).trans ⟨fun hw => hw.resolve_right fun hs => hm hs.1, .inl⟩)

theorem splitAt (h : SwaRefs c locks) (hw : c.Wf) {pos : Nat} (hok : c.SplitOk n pos) :
    SwaRefs { c with toRadixTree := (c.splitAt n pos).1 } locks := by
  have hlt := hw.linked_lt hok.linked
  have hn : n ≠ c.next := Nat.ne_of_lt hlt
  have hsuffix := splitAt_suffix c.toRadixTree n pos hn
  have hpre := splitAt_prefixLen c.toRadixTree n pos
  have hcov := fun k hk => h.covers_splitAt hw hok (k := k) hk
  have hpath : ∀ k ∈ locks, _ := fun k hk => ((hw.splitAt hok).upPath k.node).unique
    (hw.upPath_splitAt hok (Nat.ne_of_lt (hw.inTree_lt (h.inTree k hk))))
  have hold : ∀ m, m ≠ c.next →
      ((c.splitAt n pos).1.node m).swaTombstone = (c.node m).swaTombstone ∧
      ((c.splitAt n pos).1.node m).swaRefCount = (c.node m).swaRefCount ∧
      (m ≠ n → (c.splitAt n pos).1.node m = c.node m) := by
    intro m hm
    by_cases hmn : m = n
    · rw [hmn, hsuffix]
      exact ⟨rfl, rfl, fun h => absurd rfl h⟩
    · rw [splitAt_old _ n m pos hmn hm]
      exact ⟨rfl, rfl, fun _ => rfl⟩
  -- who has an id after the split had it, or is the new node and has that of the old one
  have huuid : ∀ m u, ((c.splitAt n pos).1.node m).swaUuid = some u →
      (m = c.next ∧ (c.node n).swaUuid = some u) ∨
        (m ≠ c.next ∧ m ≠ n ∧ (c.node m).swaUuid = some u) := by
    intro m u hu
    by_cases hm : m = c.next
    · rw [hm, hpre] at hu
      exact .inl ⟨hm, hu⟩
    · by_cases hmn : m = n
      · rw [hmn, hsuffix] at hu
        cases hu
      · rw [(hold m hm).2.2 hmn] at hu
        exact .inr ⟨hm, hmn, hu⟩
  refine
    { refs := h.refs.splitAt hw hok,
      inTree := fun k hk => (h.inTree k hk).imp_right fun hl => ?_,
      root := ?_, swaRefs := fun m hm => ?_, tokens := fun k hk => ?_,
      boundary := fun k hk m hm he => ?_, uuid_inj := fun a ha b hb u hau hbu => ?_,
      uuid_le := fun m hm u hu => ?_, lock_le := h.lock_le }
  · exact (splitAt_linked _ n pos hn k.node).mpr (.inr hl)
  · show ((c.splitAt n pos).1.node _).refCount = 1
    rw [splitAt_old _ n _ pos (hw.linked_ne_root hok.linked).symm (Nat.ne_of_lt hw.root_lt)]
    exact h.root
  · show ((c.splitAt n pos).1.node m).swaRefCount =
      locks.countP fun k => k.covers (c.splitAt n pos).1 m
    by_cases hms : m = c.next
    · rw [hms, hpre]
      refine (h.swaRefs n hlt).trans (List.countP_congr fun k hk => ?_)
      rw [(hcov k hk).1]
    · rw [(hold m hms).2.1, h.swaRefs m (Nat.lt_of_le_of_ne (Nat.le_of_lt_succ hm) hms)]
      refine List.countP_congr fun k hk => ?_
      rw [(hcov k hk).2 m hms]
  · rw [h.tokens k hk, SwaLock.marks, SwaLock.marks]
    show _ = ((c.splitAt n pos).1.rootPath k.node).reverse.flatMap _
    rw [hpath k hk]
    refine (flatMap_spliced (fun _ => ?_) fun a ha han => ?_).symm
    · show List.replicate ((c.splitAt n pos).1.node c.next).length (k.covers (c.splitAt n pos).1 _) ++
        List.replicate ((c.splitAt n pos).1.node n).length (k.covers (c.splitAt n pos).1 n) = _
      rw [(hcov k hk).1, (hcov k hk).2 n hn, List.replicate_append_replicate, hpre, hsuffix]
      congr 1
      show ((c.node n).key.take pos).length + ((c.node n).key.drop pos).length = _
      rw [← List.length_append, List.take_append_drop]
      rfl
    · have has := Nat.ne_of_lt (hw.mem_rootPath_lt ha).1
      show List.replicate ((c.splitAt n pos).1.node a).length (k.covers (c.splitAt n pos).1 a) = _
      rw [(hcov k hk).2 a has, (hold a has).2.2 han]
  · have hm' : m ∈ (c.splitAt n pos).1.rootPath k.node := hm
    rw [hpath k hk] at hm'
    show ((c.splitAt n pos).1.node m).swaTombstone = false
    obtain ⟨u, hu, hmu⟩ := ends_iff.mp he
    rcases huuid m u hmu with ⟨rfl, hnu⟩ | ⟨hms, -, hmu⟩
    · rw [hpre]
      refine h.boundary k hk n ?_ (ends_iff.mpr ⟨u, hu, hnu⟩)
      refine ((mem_spliced.mp hm').resolve_left fun hmem => ?_).2
      exact Nat.lt_irrefl _ (hw.mem_rootPath_lt hmem).1
    · rw [(hold m hms).1]
      exact h.boundary k hk m ((mem_spliced.mp hm').resolve_right fun hs => hms hs.1)
        (ends_iff.mpr ⟨u, hu, hmu⟩)
  · have hltof : ∀ m, m < c.next + 1 → m ≠ c.next → m < c.next := fun m hm hms =>
      Nat.lt_of_le_of_ne (Nat.le_of_lt_succ hm) hms
    rcases huuid a u hau with ⟨has, hnu⟩ | ⟨has, han, hau'⟩
    · rcases huuid b u hbu with ⟨hbs, -⟩ | ⟨hbs, hbn, hbu'⟩
      · exact has.trans hbs.symm
      · exact absurd (h.uuid_inj n hlt b (hltof b hb hbs) u hnu hbu').symm hbn
    · rcases huuid b u hbu with ⟨-, hnu⟩ | ⟨hbs, -, hbu'⟩
      · exact absurd (h.uuid_inj a (hltof a ha has) n hlt u hau' hnu) han
      · exact h.uuid_inj a (hltof a ha has) b (hltof b hb hbs) u hau' hbu'
  · rcases huuid m u hu with ⟨-, hnu⟩ | ⟨hms, -, hmu⟩
    · exact h.uuid_le n hlt u hnu
    · exact h.uuid_le m (Nat.lt_of_le_of_ne (Nat.le_of_lt_succ hm) hms) u hmu

-- ---------------------------------------------------------------------------
-- Locks
-- ---------------------------------------------------------------------------

theorem perm {locks' : List SwaLock} (h : SwaRefs c locks) (hp : locks'.Perm locks) :
    SwaRefs c locks' where
  refs := h.refs.perm (hp.map _)
  inTree := fun k hk => h.inTree k (hp.mem_iff.mp hk)
  root := h.root
  swaRefs := fun m hm => by rw [h.swaRefs m hm, hp.countP_eq]
  tokens := fun k hk => h.tokens k (hp.mem_iff.mp hk)
  boundary := fun k hk => h.boundary k (hp.mem_iff.mp hk)
  uuid_inj := h.uuid_inj
  uuid_le := h.uuid_le
  lock_le := fun k hk => h.lock_le k (hp.mem_iff.mp hk)

theorem onLive_eq {win : List NodeId} (hnd : win.Nodup) (m : NodeId) :
    onLive t win m = if (decide (m ∈ win) && !(t.node m).swaTombstone) = true then 1 else 0 := by
  rw [onLive]
  cases (t.node m).swaTombstone with
  | true => rw [if_pos rfl, Bool.not_true, Bool.and_false, if_neg Bool.false_ne_true]
  | false =>
    rw [if_neg Bool.false_ne_true, Bool.not_false, Bool.and_true]
    by_cases hm : m ∈ win
    · rw [List.count_eq_one_of_mem hnd hm, decide_eq_true hm, if_pos rfl]
    · rw [List.count_eq_zero_of_not_mem hm, decide_eq_false hm, if_neg Bool.false_ne_true]

/-- What the ids say after the walk of `inc_lock`. -/
structure Stamped (c d : SWARadixCache) (path win : List NodeId) (uuid : Option Nat) : Prop where
  window : upTo (ends d.toRadixTree uuid) path = win
  boundary : ∀ m ∈ path, ends d.toRadixTree uuid m = true → (c.node m).swaTombstone = false
  older : ∀ v ≤ c.uuid, ∀ m,
    ends d.toRadixTree (some v) m = ends c.toRadixTree (some v) m
  uuid_inj : ∀ a < c.next, ∀ b < c.next, ∀ u, (d.node a).swaUuid = some u →
    (d.node b).swaUuid = some u → a = b
  uuid_le : ∀ m < c.next, ∀ u, (d.node m).swaUuid = some u → u ≤ d.uuid
  lock_le : ∀ u, uuid = some u → u ≤ d.uuid
  grows : c.uuid ≤ d.uuid

theorem stamped (h : SwaRefs c locks) (hw : c.Wf) {win : List NodeId} {uuid : Option Nat}
    (hend : WalkEnd c (c.rootPath n) win d uuid) : Stamped c d (c.rootPath n) win uuid := by
  cases hend with
  | short hwin hids =>
    have hnone : ∀ m, ends d.toRadixTree none m = false := fun _ => rfl
    exact
      { window := (upTo_eq_self fun m _ => hnone m).trans hwin.symm,
        boundary := fun m _ he => absurd ((hnone m).symm.trans he) Bool.false_ne_true,
        older := fun v _ m => ends_congr (hids.swaUuid m),
        uuid_inj := fun a ha b hb u hau hbu => h.uuid_inj a ha b hb u
          ((hids.swaUuid a).symm.trans hau) ((hids.swaUuid b).symm.trans hbu),
        uuid_le := fun m hm u hu => hids.uuid ▸ h.uuid_le m hm u ((hids.swaUuid m).symm.trans hu),
        lock_le := fun u hu => absurd hu (by nofun), grows := Nat.le_of_eq hids.uuid.symm }
  | @full front back b u hpath hwin hlive hmark =>
    have hb : b ∈ c.rootPath n := by
      rw [hpath]
      exact List.mem_append_right _ List.mem_cons_self
    have hblt := (hw.mem_rootPath_lt hb).1
    have hgrows : c.uuid ≤ d.uuid ∧ u ≤ d.uuid := by
      rcases hmark.uuid with ⟨hbu, hu⟩ | ⟨-, hu, hd⟩
      · exact ⟨Nat.le_of_eq hu.symm, hu ▸ h.uuid_le b hblt u hbu⟩
      · omega
    have hother : ∀ m, m ≠ b → (d.node m).swaUuid = (c.node m).swaUuid := fun m hm => by
      rw [hmark.swaUuid, if_neg hm]
    have hself : (d.node b).swaUuid = some u := by rw [hmark.swaUuid, if_pos rfl]
    -- only the boundary has its id
    have honly : ∀ m < c.next, (d.node m).swaUuid = some u → m = b := by
      intro m hm hmu
      by_contra hmb
      rw [hother m hmb] at hmu
      rcases hmark.uuid with ⟨hbu, -⟩ | ⟨-, hu, -⟩
      · exact hmb (h.uuid_inj m hm b hblt u hmu hbu)
      · have := h.uuid_le m hm u hmu
        omega
    have hends : ∀ m ∈ c.rootPath n, ends d.toRadixTree (some u) m = true → m = b := by
      intro m hm he
      obtain ⟨v, hv, hmv⟩ := ends_iff.mp he
      cases hv
      exact honly m (hw.mem_rootPath_lt hm).1 hmv
    refine
      { window := ?_, boundary := fun m hm he => hends m hm he ▸ hlive,
        older := fun v hv m => ?_, uuid_inj := fun a ha x hx v hav hxv => ?_,
        uuid_le := fun m hm v hmv => ?_, lock_le := fun v hv => Option.some.inj hv ▸ hgrows.2,
        grows := hgrows.1 }
    · have hnd := (hw.upPath n).nodup
      rw [hpath] at hnd hends ⊢
      rw [hwin]
      refine upTo_append_cons (fun a ha => Bool.eq_false_iff.mpr fun he => ?_)
        (ends_iff.mpr ⟨u, rfl, hself⟩)
      have hab := hends a (List.mem_append_left _ ha) he
      exact List.disjoint_of_nodup_append hnd ha (hab ▸ List.mem_cons_self)
    · by_cases hmb : m = b
      · rcases hmark.uuid with ⟨hbu, -⟩ | ⟨hbu, hu, -⟩
        · exact ends_congr (by rw [hmb, hself, hbu])
        · have hne : u ≠ v := by omega
          have hold : ends c.toRadixTree (some v) m = false := by
            rw [ends, hmb, hbu]
            rfl
          rw [hold]
          refine Bool.eq_false_iff.mpr fun he => ?_
          obtain ⟨v', hv', hmv⟩ := ends_iff.mp he
          rw [hmb, hself, ← hv', Option.some.injEq] at hmv
          exact hne hmv
      · exact ends_congr (hother m hmb)
    · by_cases hab : a = b
      · rw [hab, hself] at hav
        exact hab.trans (honly x hx (hxv.trans hav.symm)).symm
      · by_cases hxb : x = b
        · rw [hxb, hself] at hxv
          exact (honly a ha (hav.trans hxv.symm)).trans hxb.symm
        · rw [hother a hab] at hav
          rw [hother x hxb] at hxv
          exact h.uuid_inj a ha x hx v hav hxv
    · by_cases hmb : m = b
      · rw [hmb, hself, Option.some.injEq] at hmv
        exact hmv ▸ hgrows.2
      · rw [hother m hmb] at hmv
        exact Nat.le_trans (h.uuid_le m hm v hmv) hgrows.1

theorem incLock (h : SwaRefs c locks) (hok : c.Ok) (hn : c.InTree n) :
    SwaRefs (c.incLock n).1 (.taken c n :: locks) := by
  have hw := hok.toWf
  obtain ⟨win, hc, hend⟩ := incLock_counts hok.window_pos n
  rw [SwaLock.taken]
  generalize c.incLock n = r at hc hend ⊢
  obtain ⟨d, uuid⟩ := r
  have hst := h.stamped hw hend
  have hshape := hc.sameShape
  have htomb := fun m => (hc.node m).swaTombstone
  have hnd : win.Nodup := by
    rw [← hst.window]
    exact (upTo_prefixed _ _).sublist.nodup (hw.upPath n).nodup
  generalize hk : (⟨n, uuid, c.collectKv n, tokensRaised c.toRadixTree d.toRadixTree n⟩ :
    SwaLock) = k
  have hwin : k.window d.toRadixTree = win := by
    rw [← hk, SwaLock.window, hshape.rootPath_eq]
    exact hst.window
  -- the new lock counts where it covers
  have hnew : ∀ m, (d.node m).swaRefCount = (c.node m).swaRefCount +
      if k.covers d.toRadixTree m = true then 1 else 0 := by
    intro m
    rw [(hc.node m).swaRefCount, onLive_eq hnd, SwaLock.covers, hwin, htomb]
  -- the older locks cover what they covered: no boundary of theirs has moved
  have hcov : ∀ k' ∈ locks, ∀ m, k'.covers d.toRadixTree m = k'.covers c.toRadixTree m := by
    intro k' hk' m
    have hends : ∀ m ∈ c.rootPath k'.node,
        ends d.toRadixTree k'.uuid m = ends c.toRadixTree k'.uuid m := by
      intro m _
      cases hu : k'.uuid with
      | none => rfl
      | some v => exact hst.older v (h.lock_le k' hk' v hu) m
    rw [SwaLock.covers, SwaLock.covers, SwaLock.window_congr (hshape.rootPath_eq _) hends, htomb]
  refine
    { refs := ?_, inTree := fun k' hk' => ?_, root := ?_, swaRefs := fun m hm => ?_,
      tokens := fun k' hk' => ?_, boundary := fun k' hk' m hm he => ?_,
      uuid_inj := fun a ha b hb => hst.uuid_inj a (hshape.next ▸ ha) b (hshape.next ▸ hb),
      uuid_le := fun m hm => hst.uuid_le m (hshape.next ▸ hm), lock_le := fun k' hk' u hu => ?_ }
  · have hrefs := h.refs.inc hw (hw.inTree_lt hn) hshape fun m => (hc.node m).refCount
    rw [List.map_cons, ← hk]
    exact hrefs
  · rw [hshape.inTree_iff]
    rcases List.mem_cons.mp hk' with rfl | hk'
    · rw [← hk]
      exact hn
    · exact h.inTree k' hk'
  · show (d.node _).refCount = 1
    rw [(hc.node _).refCount, List.count_eq_zero_of_not_mem, h.root]
    exact fun hm => (hw.mem_rootPath_lt hm).2 rfl
  · rw [hshape.next] at hm
    rw [hnew, h.swaRefs m hm, List.countP_cons]
    congr 1
    exact List.countP_congr fun k' hk' => by rw [hcov k' hk']
  · rcases List.mem_cons.mp hk' with rfl | hk'
    · have htokens : k'.tokens = tokensRaised c.toRadixTree d.toRadixTree k'.node := by
        rw [← hk]
      have hkey : ∀ m, (d.node m).key = (c.node m).key := hshape.key
      rw [htokens, tokensRaised_eq hnew, SwaLock.marks, hshape.rootPath_eq]
      simp only [Node.length, hkey]
    · rw [h.tokens k' hk']
      exact (SwaLock.marks_congr (hshape.rootPath_eq _)
        (fun m _ => congrArg List.length (hshape.key m)) (hcov k' hk')).symm
  · rw [hshape.rootPath_eq] at hm
    rw [htomb]
    rcases List.mem_cons.mp hk' with rfl | hk'
    · rw [← hk] at hm he
      exact hst.boundary m hm he
    · refine h.boundary k' hk' m hm ?_
      obtain ⟨u, hu, -⟩ := ends_iff.mp he
      rw [hu, hst.older u (h.lock_le k' hk' u hu) m] at he
      rwa [hu]
  · rcases List.mem_cons.mp hk' with rfl | hk'
    · rw [← hk] at hu
      exact hst.lock_le u hu
    · exact Nat.le_trans (h.lock_le k' hk' u hu) hst.grows

/-- A lock that ends is taken off exactly what it covers. -/
theorem decLock (h : SwaRefs c (k :: locks)) (hok : c.Ok) :
    ∃ d, c.decLock k.node k.uuid false = some d ∧ SwaRefs d locks ∧
      SwaCounted d.toRadixTree c.toRadixTree (fun m => (c.rootPath k.node).count m)
        fun m => if k.covers c.toRadixTree m = true then 1 else 0 := by
  have hw := hok.toWf
  have hnd := (hw.upPath k.node).nodup
  obtain ⟨d, hdec, hids, hc⟩ := decLock_counts hnd
    (fun m hm => h.refCount_pos hw List.mem_cons_self hm)
    (fun m hm hl => h.swaRefCount_pos hw List.mem_cons_self (SwaLock.covers_iff.mpr ⟨hm, hl⟩))
    fun m hm he => h.boundary k List.mem_cons_self m hm he
  have hc := hc.congr (fun _ => rfl) fun m =>
    onLive_eq ((upTo_prefixed _ _).sublist.nodup hnd) m
  refine ⟨d, hdec, ?_, hc⟩
  have hshape := hc.sameShape
  have htomb := fun m => (hc.node m).swaTombstone
  -- an unlock moves no boundary, so the other locks cover what they covered
  have hends : ∀ uuid m, ends c.toRadixTree uuid m = ends d.toRadixTree uuid m := fun uuid m =>
    ends_congr (hids.swaUuid m).symm
  have hcov : ∀ k' : SwaLock, ∀ m, k'.covers c.toRadixTree m = k'.covers d.toRadixTree m := by
    intro k' m
    rw [SwaLock.covers, SwaLock.covers,
      SwaLock.window_congr (hshape.rootPath_eq _) fun m _ => hends _ m, htomb]
  refine
    { refs := ?_, inTree := fun k' hk' => ?_, root := ?_, swaRefs := fun m hm => ?_,
      tokens := fun k' hk' => ?_, boundary := fun k' hk' m hm he => ?_,
      uuid_inj := fun a ha b hb u hau hbu => ?_, uuid_le := fun m hm u hu => ?_,
      lock_le := fun k' hk' u hu => ?_ }
  · exact (show RefInv c.toRadixTree (k.node :: locks.map SwaLock.node) from h.refs).dec hw hshape
      fun m => (hc.node m).refCount
  · rw [← hshape.inTree_iff]
    exact h.inTree k' (List.mem_cons_of_mem _ hk')
  · have hroot := (hc.node RadixTree.root).refCount
    rw [List.count_eq_zero_of_not_mem fun hm => (hw.mem_rootPath_lt hm).2 rfl, h.root] at hroot
    exact hroot.symm
  · rw [← hshape.next] at hm
    have hcount := h.swaRefs m hm
    rw [(hc.node m).swaRefCount, List.countP_cons] at hcount
    refine (Nat.add_right_cancel hcount).trans (List.countP_congr fun k' _ => ?_)
    rw [hcov]
  · rw [h.tokens k' (List.mem_cons_of_mem _ hk')]
    exact SwaLock.marks_congr (hshape.rootPath_eq _)
      (fun m _ => congrArg List.length (hshape.key m)) (hcov k')
  · rw [← hshape.rootPath_eq] at hm
    rw [← htomb]
    exact h.boundary k' (List.mem_cons_of_mem _ hk') m hm ((hends _ m).trans he)
  · rw [← hshape.next] at ha hb
    rw [hids.swaUuid] at hau hbu
    exact h.uuid_inj a ha b hb u hau hbu
  · rw [← hshape.next] at hm
    rw [hids.swaUuid] at hu
    rw [hids.uuid]
    exact h.uuid_le m hm u hu
  · rw [hids.uuid]
    exact h.lock_le k' (List.mem_cons_of_mem _ hk') u hu

end SwaRefs

namespace SWARadixCache

/-- The counters, the counts and the pages of the locked paths while `locks` are
outstanding. -/
structure Booked (locks : List SwaLock) (c : SWARadixCache) : Prop where
  gauged : c.Gauged
  refs : SwaRefs c locks
  indices : ∀ k ∈ locks, c.collectKv k.node = k.indices

open SwaRefs

/-- A move that changes the pages of no locked node. -/
theorem Booked.steady {locks : List SwaLock} (h : Booked locks c) (hok : c.Ok)
    (hg : d.Gauged) (hs : Steady c d locks)
    (hv : ∀ m < c.next, 0 < (c.node m).refCount → (d.node m).value = (c.node m).value) :
    Booked locks d where
  gauged := hg
  refs := h.refs.steady hok.toWf hs
  indices := fun k hk => by
    rw [← h.indices k hk, collectKv, collectKv, hs.path k hk]
    refine List.flatMap_congr fun m hm => ?_
    have hm := List.mem_reverse.mp hm
    exact hv m (hok.mem_rootPath_lt hm).1 (h.refs.refCount_pos hok.toWf hk hm)

theorem booked_insertKeeps (locks : List SwaLock) : InsertKeeps (Booked locks) where
  stamp := fun c n tic hok h => by
    refine h.steady hok (gauged_matchKeeps.stamp c n tic hok h.gauged) ?_
      fun m _ _ => field_modify Node.value (f := fun x => { x with timestamp := tic })
        (fun _ => rfl) rfl m
    exact h.refs.steady_modify (n := n) (f := fun x => { x with timestamp := tic }) rfl rfl
      (fun _ => rfl) (fun _ _ _ => rfl) rfl (fun _ => rfl) (fun _ => rfl) (fun _ => rfl)
      fun _ _ _ => .inl rfl
  clock := fun _ _ h => ⟨h.gauged, ⟨h.refs.refs, h.refs.inTree, h.refs.root, h.refs.swaRefs,
    h.refs.tokens, h.refs.boundary, h.refs.uuid_inj, h.refs.uuid_le, h.refs.lock_le⟩, h.indices⟩
  split := fun c n pos hok hsplit h => by
    refine ⟨gauged_matchKeeps.split c n pos hok hsplit h.gauged, h.refs.splitAt hok.toWf hsplit,
      fun k hk => ?_⟩
    rw [← h.indices k hk]
    exact concat_splitAt hok.toWf hsplit cuts_value
      (Nat.ne_of_lt (hok.inTree_lt (h.refs.inTree k hk)))
  child := fun c parent ids kv tombstone r hok hc hadd h => by
    refine h.steady hok (gauged_insertKeeps.child c parent ids kv tombstone r hok hc hadd h.gauged)
      (h.refs.steady_addChild hok.toWf hc hadd) fun m hm _ => ?_
    rw [addChild_old hadd hm]
  revive := fun c child kv d hok hl htomb href hrev h => by
    have hg := gauged_insertKeeps.revive c child kv d hok hl htomb href hrev h.gauged
    rw [revive] at hrev
    split at hrev
    · cases hrev
    cases hrev
    refine h.steady hok hg (h.refs.steady_modify (n := child)
      (f := .adopt kv ((c.clk + 1) * eventStride)) rfl rfl
      (fun _ => rfl) (fun _ _ _ => rfl) rfl (fun _ => rfl) (fun _ => rfl) (fun _ => rfl)
      fun k hk hm => ?_) fun m _ hm => ?_
    · -- no lock is on or below a node that is revived
      have := h.refs.refCount_pos hok.toWf hk hm
      omega
    · show ((c.modify child _).node m).value = _
      rw [modify_node, if_neg]
      rintro rfl
      omega

/-- An eviction takes no node that a lock counts. -/
theorem Booked.drop {locks : List SwaLock} (h : Booked locks c) (hok : c.Ok)
    (hn : (c.node n).linked = true) (href : (c.node n).refCount = 0)
    (hg : d.Gauged) (ht : d.toRadixTree = c.unlink n) (hu : d.uuid = c.uuid) : Booked locks d := by
  refine h.steady hok hg (h.refs.steady_modify (n := n)
    (f := fun x => { x with linked := false }) ht hu (fun _ => rfl) (fun k hk hkn => ?_) rfl
    (fun _ => rfl) (fun _ => rfl) (fun _ => rfl) fun _ _ _ => .inl rfl) fun m _ _ => ?_
  · have hself := hok.mem_rootPath_self (hok.linked_lt hn) (hok.linked_ne_root hn)
    rw [← hkn] at href hself
    exact absurd href (Nat.ne_of_gt (h.refs.refCount_pos hok.toWf hk hself))
  · rw [ht]
    exact unlink_field _ n m Node.value fun _ => rfl

theorem booked_evictKeeps (locks : List SwaLock) : EvictKeeps fun e => Booked locks e.cache where
  freed := fun _ _ h => h
  entomb := fun e n hok hl hlive href h => by
    refine h.steady hok (h.gauged.entomb hok.toWf hl hlive href) ?_
      fun m _ _ => field_modify Node.value (f := .setTombstone true) (fun _ => rfl) rfl m
    exact h.refs.steady_modify (n := n) (f := .setTombstone true) rfl rfl (fun _ => rfl)
      (fun _ _ _ => rfl) rfl (fun _ => rfl) (fun _ => rfl) (fun _ => rfl)
      fun _ _ _ => .inr ⟨href, rfl⟩
  drop := fun _ _ hok hl _ href htomb h =>
    h.drop hok hl href (h.gauged.dropNode hok.toWf hl href htomb) rfl rfl
  dropLive := fun e n hok hl _ href hlive h => by
    have hle := h.refs.swaRefCount_le hok.toWf (hok.linked_lt hl)
    exact h.drop hok hl href (h.gauged.dropLive hok.toWf hl href hlive (by omega)) rfl rfl

end SWARadixCache

end FreeToken.KvCache
