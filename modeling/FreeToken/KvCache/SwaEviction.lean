import FreeToken.KvCache.SwaTree

/-!
# Locks and evictions of the window cache

The rest of the sliding-window cache's operations keep its tree in order. An eviction
is a sequence of moves: a live node without a window lock becomes a tombstone, and an
unlocked leaf leaves the tree with its pages.

## Results

* `incLock_ok`, `decLock_ok`, `evictFull_ok`, `evictSwa_ok`, `trimHeadSwa_ok`;
* `evictFull_keeps`, `evictSwa_keeps`, `trimHeadSwa_keeps` — what the moves keep, the
  evictions keep.
-/

namespace FreeToken.KvCache

open FreeToken.Lib RadixTree

namespace SWARadixCache

variable {c c' d : SWARadixCache} {node child : NodeId} {P : SWARadixCache → Prop}

-- ---------------------------------------------------------------------------
-- Locks
-- ---------------------------------------------------------------------------

/-- A cache whose tree is `c`'s with one node recoloured. -/
theorem Ok.recolor (h : c.Ok) {f : Node → Node} (hf : Recolors (c.node node) (f (c.node node)))
    (htree : d.toRadixTree = c.modify node f)
    (hwindow : d.slidingWindowSize = c.slidingWindowSize) : d.Ok where
  toSwaWf := htree ▸ h.toSwaWf.recolor hf
  window_pos := hwindow ▸ h.window_pos

theorem recolors_addRef (x : Node) : Recolors x x.addRef := ⟨rfl, rfl, rfl, rfl, rfl, id⟩

theorem recolors_dropRef (x : Node) : Recolors x x.dropRef := ⟨rfl, rfl, rfl, rfl, rfl, id⟩

theorem recolors_setSwaUuid (u : Nat) (x : Node) : Recolors x (x.setSwaUuid u) :=
  ⟨rfl, rfl, rfl, rfl, rfl, id⟩

theorem recolors_dropSwaRef (x : Node) : Recolors x x.dropSwaRef :=
  ⟨rfl, rfl, rfl, rfl, rfl, fun h ht => by rw [Node.dropSwaRef, h ht]⟩

/-- Only a live node takes a window lock. -/
theorem recolors_addSwaRef {x : Node} (hlive : x.swaTombstone = false) :
    Recolors x x.addSwaRef :=
  ⟨rfl, rfl, rfl, rfl, rfl, fun _ ht => by rw [Node.addSwaRef, hlive] at ht; cases ht⟩

/-- Only a node without a window lock becomes a tombstone. -/
theorem recolors_entomb {x : Node} (href : x.swaRefCount = 0) :
    Recolors x (x.setTombstone true) :=
  ⟨rfl, rfl, rfl, rfl, rfl, fun _ _ => href⟩

theorem incLockAt_ok {s : SWARadixCache × Option Nat × Nat} (h : s.1.Ok) (cur : NodeId) :
    (incLockAt s cur).1.Ok := by
  have hfull : (s.1.incFullRef cur).Ok := h.recolor (recolors_addRef _) rfl rfl
  rw [incLockAt]
  split
  · rename_i hif
    have hswa : ((s.1.incFullRef cur).incSwaRef cur).Ok :=
      hfull.recolor (recolors_addSwaRef hif.2) rfl rfl
    dsimp only
    split
    · rw [markBoundary]
      split
      · exact hswa
      · exact hswa.recolor (recolors_setSwaUuid _ _) rfl rfl
    · exact hswa
  · exact hfull

theorem incLock_ok (h : c.Ok) (node : NodeId) : (c.incLock node).1.Ok := by
  rw [incLock]
  have key : ∀ (path : List NodeId) (s : SWARadixCache × Option Nat × Nat), s.1.Ok →
      (path.foldl incLockAt s).1.Ok := by
    intro path
    induction path with
    | nil => exact fun s hs => hs
    | cons cur path ih => exact fun s hs => ih _ (incLockAt_ok hs cur)
  exact key _ _ h

theorem field_modify {β : Type*} (g : Node → β) {f : Node → Node} (hf : ∀ x, g (f x) = g x)
    (ht : d.toRadixTree = c.modify node f) (m : NodeId) : g (d.node m) = g (c.node m) := by
  rw [ht, modify_field _ node m g hf]

theorem decFullRef_ok (h : c.Ok) (hdec : c.decFullRef node = some d) :
    d.Ok ∧ ∀ m, (d.node m).linked = (c.node m).linked := by
  rw [decFullRef] at hdec
  split at hdec
  · cases hdec
  · cases hdec
    exact ⟨h.recolor (recolors_dropRef _) rfl rfl,
      field_modify Node.linked (f := Node.dropRef) (fun _ => rfl) rfl⟩

theorem decLockAt_ok {uuid : Option Nat} {s s' : SWARadixCache × Bool} (h : s.1.Ok) {cur : NodeId}
    (hdec : decLockAt uuid s cur = some s') : s'.1.Ok := by
  obtain ⟨c, hfull, rfl⟩ := Option.map_eq_some_iff.mp hdec
  have hc := (decFullRef_ok h hfull).1
  split
  · exact hc.recolor (recolors_dropSwaRef _) rfl rfl
  · exact hc

theorem decLock_ok {uuid : Option Nat} {skipSwa : Bool} (h : c.Ok)
    (hdec : c.decLock node uuid skipSwa = some d) : d.Ok := by
  obtain ⟨s, hrun, rfl⟩ := Option.map_eq_some_iff.mp hdec
  have key : ∀ (path : List NodeId) (s s' : SWARadixCache × Bool), s.1.Ok →
      path.foldlM (decLockAt uuid) s = some s' → s'.1.Ok := by
    intro path
    induction path with
    | nil =>
      intro s s' hs hrun
      cases hrun
      exact hs
    | cons cur path ih =>
      intro s s' hs hrun
      rw [List.foldlM_cons] at hrun
      obtain ⟨s1, h1, hrun⟩ := Option.bind_eq_some_iff.mp hrun
      exact ih _ _ (decLockAt_ok hs h1) hrun
  exact key _ _ _ h hrun

-- ---------------------------------------------------------------------------
-- Eviction
-- ---------------------------------------------------------------------------

theorem dropNode_ok (h : c.Ok) (hleaf : c.isLeaf node = true) : (c.dropNode node).Ok :=
  ⟨h.toSwaWf.unlink hleaf, h.window_pos⟩

theorem entomb_ok (h : c.Ok) (href : (c.node node).swaRefCount = 0) : (c.entomb node).Ok :=
  h.recolor (recolors_entomb href) rfl rfl

/-- The moves of an eviction keep `P`. -/
structure EvictKeeps (P : SWAEvicting → Prop) : Prop where
  freed : ∀ (e : SWAEvicting) k, P e → P { e with freed := k }
  entomb : ∀ (e : SWAEvicting) n, e.cache.Ok → (e.cache.node n).linked = true →
    (e.cache.node n).swaTombstone = false → (e.cache.node n).swaRefCount = 0 → P e →
    P { e with
      cache := e.cache.entomb n
      swaIndices := e.swaIndices ++ (e.cache.node n).value }
  drop : ∀ (e : SWAEvicting) n, e.cache.Ok → (e.cache.node n).linked = true →
    e.cache.isLeaf n = true → (e.cache.node n).refCount = 0 →
    (e.cache.node n).swaTombstone = true → P e →
    P { e with
      cache := e.cache.dropNode n
      kvIndices := e.kvIndices ++ (e.cache.node n).value }
  dropLive : ∀ (e : SWAEvicting) n, e.cache.Ok → (e.cache.node n).linked = true →
    e.cache.isLeaf n = true → (e.cache.node n).refCount = 0 →
    (e.cache.node n).swaTombstone = false → P e →
    P { e with
      cache :=
        { e.cache.dropNode n with
          swaEvictable := (e.cache.dropNode n).swaEvictable - (e.cache.node n).length }
      kvIndices := e.kvIndices ++ (e.cache.node n).value
      swaIndices := e.swaIndices ++ (e.cache.node n).value }

theorem evictKeeps_true : EvictKeeps fun _ => True :=
  ⟨fun _ _ _ => trivial, fun _ _ _ _ _ _ _ => trivial, fun _ _ _ _ _ _ _ _ => trivial,
    fun _ _ _ _ _ _ _ _ => trivial⟩

/-- `d` is `c` with some tombstones of `path` unlinked; `top` is the first node of the
path that stays. -/
structure Cascaded (c d : SWARadixCache) (path : List NodeId) (top : NodeId) : Prop where
  ok : d.Ok
  next : d.next = c.next
  parent : ∀ m, (d.node m).parent = (c.node m).parent
  swaTombstone : ∀ m, (d.node m).swaTombstone = (c.node m).swaTombstone
  linked : ∀ m, (d.node m).linked = true → (c.node m).linked = true
  gone : ∀ m, (c.node m).linked = true →
    (d.node m).linked = true ∨ m ∈ path ∧ (c.node m).swaTombstone = true
  top : top = root ∨ top ∈ path ∧ (d.node top).linked = true

theorem dropNode_linked (c : SWARadixCache) (n m : NodeId) :
    ((c.dropNode n).node m).linked = true ↔ m ≠ n ∧ (c.node m).linked = true := by
  show ((c.unlink n).node m).linked = true ↔ _
  rw [unlink_node]
  split
  · rename_i hm
    simp [hm]
  · rename_i hm
    simp [hm]

theorem Cascaded.leaf {path : List NodeId} {top m : NodeId} (h : Cascaded c d path top)
    (hm : c.isLeaf m = true) : d.isLeaf m = true := by
  rw [isLeaf_iff] at hm ⊢
  intro k hk hl
  rw [h.next] at hk
  rw [h.parent]
  exact hm k hk (h.linked k hl)

variable {Q : SWAEvicting → Prop}

theorem cascade_keeps (hQ : EvictKeeps Q) {e : SWAEvicting} {path : List NodeId} (freed : Nat)
    (h : e.cache.Ok) (hl : ∀ m ∈ path, (e.cache.node m).linked = true) (hnd : path.Nodup)
    (hq : Q e) :
    Q { e with
      cache := (cascadeSwaTombstoneLeaves e.cache e.kvIndices path freed).1
      kvIndices := (cascadeSwaTombstoneLeaves e.cache e.kvIndices path freed).2.1 } ∧
    Cascaded e.cache (cascadeSwaTombstoneLeaves e.cache e.kvIndices path freed).1 path
      (cascadeSwaTombstoneLeaves e.cache e.kvIndices path freed).2.2.1 := by
  induction path generalizing e freed with
  | nil => exact ⟨hq, h, rfl, fun _ => rfl, fun _ => rfl, fun _ => id, fun _ => .inl, .inl rfl⟩
  | cons a path ih =>
    obtain ⟨hna, hnd⟩ := List.nodup_cons.mp hnd
    have hal := hl a List.mem_cons_self
    rw [cascadeSwaTombstoneLeaves]
    split
    · rename_i hif
      have hdrop := hQ.drop e a h hal hif.2.1 hif.2.2 hif.1 hq
      have hrestl : ∀ m ∈ path, ((e.cache.dropNode a).node m).linked = true := fun m hm =>
        (dropNode_linked e.cache a m).mpr ⟨fun hma => hna (hma ▸ hm),
          hl m (List.mem_cons_of_mem _ hm)⟩
      have hmark : ∀ m, ((e.cache.dropNode a).node m).swaTombstone =
          (e.cache.node m).swaTombstone := fun m => unlink_field _ a m _ fun _ => rfl
      obtain ⟨hrest, hc⟩ := ih (freed + (e.cache.node a).length)
        (e := { e with
          cache := e.cache.dropNode a
          kvIndices := e.kvIndices ++ (e.cache.node a).value })
        (dropNode_ok h hif.2.1) hrestl hnd hdrop
      refine ⟨hrest, hc.ok, hc.next, fun m => (hc.parent m).trans (unlink_field _ a m _ fun _ => rfl),
        fun m => (hc.swaTombstone m).trans (hmark m),
        fun m hm => ((dropNode_linked _ _ _).mp (hc.linked m hm)).2, fun m hm => ?_,
        hc.top.imp_right fun ht => ⟨List.mem_cons_of_mem _ ht.1, ht.2⟩⟩
      by_cases hma : m = a
      · rw [hma]
        exact .inr ⟨List.mem_cons_self, hif.1⟩
      · refine (hc.gone m ((dropNode_linked _ _ _).mpr ⟨hma, hm⟩)).imp_right fun hg => ?_
        exact ⟨List.mem_cons_of_mem _ hg.1, (hmark m).symm.trans hg.2⟩
    · exact ⟨hq, h, rfl, fun _ => rfl, fun _ => rfl, fun _ => id, fun _ => .inl,
        .inr ⟨List.mem_cons_self, hal⟩⟩

/-- The nodes of the heap of `evict_full` are leaves of the tree. -/
structure LeavesOnly (c : SWARadixCache) (heap : List NodeId) : Prop where
  nodup : heap.Nodup
  leaf : ∀ m ∈ heap, (c.node m).linked = true ∧ c.isLeaf m = true

/-- A branch from the leaf `n` up was dropped. -/
theorem LeavesOnly.cascaded {heap : List NodeId} (hh : LeavesOnly c heap) (h : c.Ok)
    {n top : NodeId} (hn : n ∈ heap) {s : SWARadixCache}
    (hs : ∀ m, (s.node m).linked = true ↔ m ≠ n ∧ (c.node m).linked = true)
    (hleaf : ∀ m, c.isLeaf m = true → s.isLeaf m = true)
    (hc : Cascaded s d (c.rootPath n).tail top) :
    LeavesOnly d (if d.isLeaf top = true ∧ (d.node top).refCount = 0 ∧ top ≠ root
      then top :: heap.erase n else heap.erase n) := by
  have hnl := (hh.leaf n hn).1
  -- what lies above a node of the tree is no leaf, so it is not in the heap
  have habove : ∀ m ∈ (c.rootPath n).tail, m ∉ heap := by
    intro m hm hmh
    obtain ⟨p, hp, -⟩ := h.linked_parent n hnl
    have hnd := (h.upPath n).nodup
    rw [h.rootPath_cons hp, List.nodup_cons] at hnd
    have hne : m ≠ n := by
      rintro rfl
      rw [h.rootPath_cons hp, List.tail_cons] at hm
      exact hnd.1 hm
    have hnot := h.not_leaf_of_above hnl (List.mem_of_mem_tail hm) hne
    rw [(hh.leaf m hmh).2] at hnot
    cases hnot
  have hold : ∀ m ∈ heap.erase n, (d.node m).linked = true ∧ d.isLeaf m = true := by
    intro m hm
    obtain ⟨hmn, hmh⟩ := (List.Nodup.mem_erase_iff hh.nodup).mp hm
    obtain ⟨hml, hmleaf⟩ := hh.leaf m hmh
    refine ⟨(hc.gone m ((hs m).mpr ⟨hmn, hml⟩)).resolve_right fun hg => ?_, hc.leaf (hleaf m hmleaf)⟩
    exact habove m hg.1 hmh
  split
  · rename_i hif
    obtain ⟨htop, htl⟩ := hc.top.resolve_left hif.2.2
    refine ⟨List.nodup_cons.mpr ⟨fun hm => habove _ htop (List.mem_of_mem_erase hm),
      hh.nodup.erase n⟩, fun m hm => ?_⟩
    rcases List.mem_cons.mp hm with rfl | hm
    · exact ⟨htl, hif.1⟩
    · exact hold m hm
  · exact ⟨hh.nodup.erase n, hold⟩

theorem LeavesOnly.erase {heap : List NodeId} (hh : LeavesOnly c heap) (n : NodeId) :
    LeavesOnly c (heap.erase n) :=
  ⟨hh.nodup.erase n, fun m hm => hh.leaf m (List.mem_of_mem_erase hm)⟩

/-- The tail of a node's path is in the tree, without the node. -/
theorem tail_linked (h : c.Ok) {n : NodeId} (hn : (c.node n).linked = true) {s : SWARadixCache}
    (hs : ∀ m, (s.node m).linked = true ↔ m ≠ n ∧ (c.node m).linked = true) :
    (c.rootPath n).tail.Nodup ∧ ∀ m ∈ (c.rootPath n).tail, (s.node m).linked = true := by
  obtain ⟨p, hp, -⟩ := h.linked_parent n hn
  have hnd := (h.upPath n).nodup
  rw [h.rootPath_cons hp, List.nodup_cons] at hnd
  rw [h.rootPath_cons hp, List.tail_cons]
  refine ⟨hnd.2, fun m hm => (hs m).mpr ⟨?_, ?_⟩⟩
  · rintro rfl
    exact hnd.1 hm
  · refine h.linked_of_mem_rootPath (.inr hn) m ?_
    rw [h.rootPath_cons hp]
    exact List.mem_cons_of_mem _ hm

theorem evictFullLoop_keeps (hQ : EvictKeeps Q) (numTokens : Nat) (ties : Nat → Nat) (fuel : Nat)
    {e : SWAEvicting} (h : e.cache.Ok) {heap : List NodeId} (hh : LeavesOnly e.cache heap)
    (hq : Q e) : (evictFullLoop numTokens ties fuel e heap).cache.Ok ∧
      Q (evictFullLoop numTokens ties fuel e heap) := by
  induction fuel generalizing e heap with
  | zero => exact ⟨h, hq⟩
  | succ fuel ih =>
    rw [evictFullLoop]
    split
    · exact ⟨h, hq⟩
    split
    · exact ⟨h, hq⟩
    rename_i n hpop
    have hmem := popOldest_mem hpop
    obtain ⟨hnl, hleaf⟩ := hh.leaf n hmem
    dsimp only
    split
    · exact ih h (hh.erase n) hq
    rename_i hif
    rw [not_or, not_not] at hif
    have hleaves : ∀ m, e.cache.isLeaf m = true → (e.cache.unlink n).isLeaf m = true := by
      intro m hm
      rw [isLeaf_iff] at hm ⊢
      intro k hk hkl
      rw [show ((e.cache.unlink n).node k).parent = _ from unlink_field _ n k _ fun _ => rfl]
      exact hm k hk ((dropNode_linked e.cache n k).mp hkl).2
    obtain ⟨hnd, hlinked⟩ := tail_linked h hnl (dropNode_linked e.cache n)
    by_cases htomb : (e.cache.node n).swaTombstone = true
    · rw [if_pos htomb, if_pos htomb]
      obtain ⟨hrest, hc⟩ := cascade_keeps hQ 0 (dropNode_ok h hleaf) hlinked hnd
        (hQ.drop e n h hnl hleaf hif.1 htomb hq)
      exact ih hc.ok (hh.cascaded h hmem (dropNode_linked e.cache n) hleaves hc)
        (hQ.freed _ _ hrest)
    · rw [if_neg htomb, if_neg htomb]
      have hok : ({ e.cache.dropNode n with
          swaEvictable := (e.cache.dropNode n).swaEvictable - (e.cache.node n).length } :
            SWARadixCache).Ok := ⟨(dropNode_ok h hleaf).toSwaWf, h.window_pos⟩
      obtain ⟨hrest, hc⟩ := cascade_keeps hQ 0 hok hlinked hnd
        (hQ.dropLive e n h hnl hleaf hif.1 (Bool.eq_false_iff.mpr htomb) hq)
      refine ih hc.ok (hh.cascaded h hmem ?_ ?_ hc) (hQ.freed _ _ hrest)
      · exact dropNode_linked e.cache n
      · exact hleaves

theorem evictFull_keeps (hQ : EvictKeeps Q) (h : c.Ok) (numTokens : Nat) (ties : Nat → Nat)
    (hq : Q ⟨c, [], [], 0⟩) :
    (c.evictFull numTokens ties).1.Ok ∧ ∃ k, Q ⟨(c.evictFull numTokens ties).1,
      (c.evictFull numTokens ties).2.kvIndices, (c.evictFull numTokens ties).2.swaIndices, k⟩ := by
  have hh : LeavesOnly c (c.leaves.filter fun n => (c.node n).refCount = 0) := by
    refine ⟨(List.nodup_range.filter _).filter _, fun m hm => ?_⟩
    have hm := (List.mem_filter.mp (List.mem_filter.mp hm).1).2
    rwa [Bool.and_eq_true] at hm
  obtain ⟨hok, hq⟩ := evictFullLoop_keeps hQ numTokens ties (3 * c.next) h hh hq
  exact ⟨hok, _, hq⟩

theorem evictFull_ok (h : c.Ok) (numTokens : Nat) (ties : Nat → Nat) :
    (c.evictFull numTokens ties).1.Ok :=
  (evictFull_keeps evictKeeps_true h numTokens ties trivial).1

theorem isLeaf_entomb (c : SWARadixCache) (node : NodeId) (n : NodeId) :
    (c.entomb node).isLeaf n = c.isLeaf n := by
  have hparent : ∀ m, ((c.entomb node).node m).parent = (c.node m).parent :=
    fun m => modify_field c.toRadixTree node m Node.parent fun _ => rfl
  have hlinked : ∀ m, ((c.entomb node).node m).linked = (c.node m).linked :=
    fun m => modify_field c.toRadixTree node m Node.linked fun _ => rfl
  have hnext : (c.entomb node).next = c.next := rfl
  simp only [isLeaf, hparent, hlinked, hnext]

/-- `evict_swa` frees a live node without a window lock: the tree keeps its other live
nodes. -/
theorem evictSwaNode_keeps (hQ : EvictKeeps Q) {e : SWAEvicting} (h : e.cache.Ok) {n : NodeId}
    (hn : (e.cache.node n).linked = true) (hlive : (e.cache.node n).swaTombstone = false)
    (href : (e.cache.node n).swaRefCount = 0) (hq : Q e) :
    (evictSwaNode e n).cache.Ok ∧ Q (evictSwaNode e n) ∧
      ∀ m, ((evictSwaNode e n).cache.node m).swaTombstone = false →
        (e.cache.node m).swaTombstone = false ∧
          ((e.cache.node m).linked = true → ((evictSwaNode e n).cache.node m).linked = true) := by
  have hok := entomb_ok h href
  have hent := hQ.entomb e n h hn hlive href hq
  have hfield : ∀ {β : Type} (g : Node → β), (∀ x, g (Node.setTombstone true x) = g x) →
      ∀ m, g ((e.cache.entomb n).node m) = g (e.cache.node m) :=
    fun g hg m => modify_field e.cache.toRadixTree n m g hg
  have hlinked := hfield Node.linked fun _ => rfl
  have hmark : ∀ m, ((e.cache.entomb n).node m).swaTombstone = false →
      m ≠ n ∧ (e.cache.node m).swaTombstone = false := by
    intro m hm
    have hnode : (e.cache.entomb n).node m = if m = n then (e.cache.node m).setTombstone true
        else e.cache.node m := modify_node e.cache.toRadixTree n m _
    rw [hnode] at hm
    split at hm
    · cases hm
    · rename_i hmn
      exact ⟨hmn, hm⟩
  rw [evictSwaNode]
  split
  swap
  · -- the node keeps its place, as a tombstone
    refine ⟨hok, hQ.freed _ _ hent, fun m hm => ⟨(hmark m hm).2, fun hl => ?_⟩⟩
    exact (hlinked m).trans hl
  -- an unlocked leaf goes, and the tombstones above it that become leaves
  rename_i hif
  have hleaf : (e.cache.entomb n).isLeaf n = true := (isLeaf_entomb e.cache n n).trans hif.1
  have htomb : ((e.cache.entomb n).node n).swaTombstone = true := by
    show ((e.cache.modify n (.setTombstone true)).node n).swaTombstone = true
    rw [modify_node, if_pos rfl]
    rfl
  have hdrop := hQ.drop _ n hok ((hlinked n).trans hn) hleaf
    ((hfield Node.refCount (fun _ => rfl) n).trans hif.2) htomb hent
  rw [hfield Node.value fun _ => rfl] at hdrop
  have hpath : (e.cache.entomb n).rootPath n = e.cache.rootPath n :=
    (SameShape.modify e.cache.toRadixTree n (fun _ => rfl) (fun _ => rfl) (fun _ => rfl)
      fun _ => rfl : SameShape _ (e.cache.entomb n).toRadixTree).rootPath_eq n
  obtain ⟨hnd, htail⟩ := tail_linked hok ((hlinked n).trans hn) (dropNode_linked _ n)
  rw [hpath] at hnd htail
  obtain ⟨hrest, hc⟩ := cascade_keeps hQ 0 (dropNode_ok hok hleaf) htail hnd hdrop
  refine ⟨hc.ok, hQ.freed _ _ hrest, fun m hm => ?_⟩
  have hm := (hc.swaTombstone m).symm.trans hm
  have hm' := hmark m (((unlink_field _ n m Node.swaTombstone fun _ => rfl) :
    ((e.cache.entomb n).dropNode n |>.node m).swaTombstone = _).symm.trans hm)
  refine ⟨hm'.2, fun hl => ?_⟩
  refine (hc.gone m ((dropNode_linked _ n m).mpr ⟨hm'.1, (hlinked m).trans hl⟩)).resolve_right ?_
  rintro ⟨-, ht⟩
  rw [hm] at ht
  cases ht

theorem evictSwaLoop_keeps (hQ : EvictKeeps Q) (numTokens : Nat) (ties : Nat → Nat) (fuel : Nat)
    {e : SWAEvicting} (h : e.cache.Ok) {heap : List NodeId}
    (hh : ∀ m ∈ heap, (e.cache.node m).swaTombstone = false → (e.cache.node m).linked = true)
    (hq : Q e) : (evictSwaLoop numTokens ties fuel e heap).cache.Ok ∧
      Q (evictSwaLoop numTokens ties fuel e heap) := by
  induction fuel generalizing e heap with
  | zero => exact ⟨h, hq⟩
  | succ fuel ih =>
    rw [evictSwaLoop]
    split
    · exact ⟨h, hq⟩
    split
    · exact ⟨h, hq⟩
    rename_i n hpop
    have hmem := popOldest_mem hpop
    dsimp only
    split
    · exact ih h (fun m hm => hh m (List.mem_of_mem_erase hm)) hq
    rename_i hif
    rw [not_or, not_or, not_not, Bool.not_eq_true] at hif
    obtain ⟨hok, hq', hlive⟩ := evictSwaNode_keeps hQ h (hh n hmem hif.1) hif.1 hif.2.1 hq
    refine ih hok (fun m hm hm' => ?_) hq'
    obtain ⟨hold, hkeep⟩ := hlive m hm'
    exact hkeep (hh m (List.mem_of_mem_erase hm) hold)

theorem evictSwa_keeps (hQ : EvictKeeps Q) (h : c.Ok) (numTokens : Nat) (ties : Nat → Nat)
    (hq : Q ⟨c, [], [], 0⟩) :
    (c.evictSwa numTokens ties).1.Ok ∧ ∃ k, Q ⟨(c.evictSwa numTokens ties).1,
      (c.evictSwa numTokens ties).2.kvIndices, (c.evictSwa numTokens ties).2.swaIndices, k⟩ := by
  have hlive : ∀ m ∈ c.swaNodes.filter fun n => (c.node n).swaRefCount = 0,
      (c.node m).swaTombstone = false → (c.node m).linked = true := fun m hm _ => by
    have hm := (List.mem_filter.mp (List.mem_filter.mp hm).1).2
    rw [Bool.and_eq_true] at hm
    exact hm.1
  obtain ⟨hok, hq⟩ := evictSwaLoop_keeps hQ numTokens ties
    (c.swaNodes.filter fun n => (c.node n).swaRefCount = 0).length (e := ⟨c, [], [], 0⟩) h
    hlive hq
  exact ⟨hok, _, hq⟩

theorem evictSwa_ok (h : c.Ok) (numTokens : Nat) (ties : Nat → Nat) :
    (c.evictSwa numTokens ties).1.Ok :=
  (evictSwa_keeps evictKeeps_true h numTokens ties trivial).1

theorem trimLoop_keeps (hQ : EvictKeeps Q) (inputIds : List Token) (keepFrom fuel : Nat)
    (h : c.Ok) (node : NodeId) (pos : Nat) (freed : List KvIndex) (k : Nat)
    (hq : Q ⟨c, [], freed, k⟩) : (trimLoop inputIds keepFrom fuel c node pos freed).1.Ok ∧
      Q ⟨(trimLoop inputIds keepFrom fuel c node pos freed).1, [],
        (trimLoop inputIds keepFrom fuel c node pos freed).2, k⟩ := by
  induction fuel generalizing c node pos freed with
  | zero => exact ⟨h, hq⟩
  | succ fuel ih =>
    rw [trimLoop]
    split
    · exact ⟨h, hq⟩
    split
    · exact ⟨h, hq⟩
    rename_i child hchild
    dsimp only
    split
    · exact ⟨h, hq⟩
    split
    · rename_i hif
      have hl := (h.childOf_eq_some_iff.mp hchild).1
      exact ih (entomb_ok h hif.2.1) _ _ _ (hQ.entomb _ child h hl hif.1 hif.2.1 hq)
    · exact ih h _ _ _ hq

/-- A trim is a match and then tombstones. -/
theorem trimHeadSwa_keeps (hP : MatchKeeps P) (hQ : EvictKeeps Q)
    (hPQ : ∀ d, P d → Q ⟨d, [], [], 0⟩) (h : c.Ok) (hp : P c) (inputIds : List Token)
    (keepFrom : Nat) : (c.trimHeadSwa inputIds keepFrom).1.Ok ∧
      Q ⟨(c.trimHeadSwa inputIds keepFrom).1, [], (c.trimHeadSwa inputIds keepFrom).2, 0⟩ := by
  rw [trimHeadSwa]
  split
  · exact ⟨h, hPQ c hp⟩
  · exact trimLoop_keeps hQ _ _ _ (matchPrefix_ok h _) _ _ _ _
      (hPQ _ (matchPrefix_keeps hP h hp _))

theorem trimHeadSwa_ok (h : c.Ok) (inputIds : List Token) (keepFrom : Nat) :
    (c.trimHeadSwa inputIds keepFrom).1.Ok :=
  (trimHeadSwa_keeps insertKeeps_true.toMatchKeeps evictKeeps_true (fun _ _ => trivial) h trivial
    inputIds keepFrom).1

end SWARadixCache

end FreeToken.KvCache
