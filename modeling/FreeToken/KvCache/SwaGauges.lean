import FreeToken.KvCache.PrefixCounts
import FreeToken.KvCache.SwaEviction

/-!
# The gauges of the window cache

`full_evictable` and `full_protected` are the lengths of the unlocked and the locked
nodes; `swa_evictable` and `swa_protected` are those of the live nodes without and
with a window lock.

## Results

* `gauged_insertKeeps`, `Gauged.incLock`, `Gauged.decLock` — the counters stay the
  lengths;
* `Gauged.entomb`, `Gauged.dropNode`, `Gauged.dropLive` — so they do in an eviction.
-/

namespace FreeToken.KvCache

open FreeToken.Lib RadixTree

/-- What a node adds to `swa_evictable` and to `swa_protected`. -/
def Node.swaSizes (x : Node) : ℤ × ℤ :=
  if x.swaTombstone = true then (0, 0)
  else if x.swaRefCount = 0 then (x.length, 0) else (0, x.length)

theorem Node.swaSizes_eq (x : Node) : x.swaSizes =
    (if x.swaTombstone = false ∧ x.swaRefCount = 0 then (x.length : ℤ) else 0,
      if x.swaTombstone = false ∧ x.swaRefCount ≠ 0 then (x.length : ℤ) else 0) := by
  rw [Node.swaSizes]
  cases x.swaTombstone with
  | true => rfl
  | false =>
    by_cases h : x.swaRefCount = 0
    · simp [h]
    · simp [h]

theorem divides_swaSizes : Divides Node.swaSizes := by
  intro x pos s
  have happ : (x.key.take pos).length + (x.key.drop pos).length = x.key.length := by
    rw [← List.length_append, List.take_append_drop]
  have hlen : ((x.key.take pos).length : ℤ) + (x.key.drop pos).length = x.key.length := by
    omega
  simp only [Node.swaSizes, Node.length]
  split
  · exact add_zero 0
  split
  · exact Prod.ext hlen (add_zero 0)
  · exact Prod.ext (add_zero 0) hlen

/-- What a node adds to the four gauges. -/
def Node.swaGauges (x : Node) : (ℤ × ℤ) × ℤ × ℤ := (x.sizes, x.swaSizes)

theorem divides_swaGauges : Divides Node.swaGauges := fun x pos s =>
  Prod.ext (divides_sizes x pos s) (divides_swaSizes x pos s)

namespace SWARadixCache

variable {c c' : SWARadixCache} {n : NodeId}

def gauges (c : SWARadixCache) : (ℤ × ℤ) × ℤ × ℤ :=
  ((c.fullEvictable, c.fullProtected), c.swaEvictable, c.swaProtected)

/-- The counters are what the nodes of the tree add up to. -/
def Gauged (c : SWARadixCache) : Prop := c.gauges = c.total Node.swaGauges

theorem gauged_empty (ps window : Nat) : (empty ps window).Gauged :=
  (total_empty ps Node.swaGauges).symm

theorem Gauged.total_full (h : c.Gauged) :
    (c.fullEvictable, c.fullProtected) = c.total Node.sizes :=
  (congrArg Prod.fst h).trans
    (map_total (AddMonoidHom.fst (ℤ × ℤ) (ℤ × ℤ)) c.toRadixTree Node.swaGauges)

theorem Gauged.total_swa (h : c.Gauged) :
    (c.swaEvictable, c.swaProtected) = c.total Node.swaSizes :=
  (congrArg Prod.snd h).trans
    (map_total (AddMonoidHom.snd (ℤ × ℤ) (ℤ × ℤ)) c.toRadixTree Node.swaGauges)

/-- One node changed, and the counters by the difference. -/
theorem Gauged.modify (h : c.Gauged) (hw : c.Wf) (hn : (c.node n).linked = true) {f : Node → Node}
    (hl : (f (c.node n)).linked = true) (ht : c'.toRadixTree = c.modify n f)
    (hs : c'.gauges + (c.node n).swaGauges = c.gauges + (f (c.node n)).swaGauges) :
    c'.Gauged := by
  have hmod := total_modify Node.swaGauges (hw.linked_lt hn) f
  rw [Node.weight, Node.weight, if_pos hn, if_pos hl, ← ht] at hmod
  rw [Gauged] at h ⊢
  refine add_right_cancel (b := (c.node n).swaGauges) ?_
  rw [hmod, ← h, hs]

/-- A change the counters do not see. -/
theorem Gauged.same (h : c.Gauged) {f : Node → Node} (hl : ∀ x, (f x).linked = x.linked)
    (hs : ∀ x, (f x).swaGauges = x.swaGauges) (ht : c'.toRadixTree = c.modify n f)
    (hg : c'.gauges = c.gauges) : c'.Gauged := by
  rw [Gauged, ht, total_modify_same c.toRadixTree n hl hs, hg]
  exact h

-- ---------------------------------------------------------------------------
-- Match and insert
-- ---------------------------------------------------------------------------

theorem gauged_matchKeeps : MatchKeeps Gauged where
  stamp := fun _ n tic _ h => h.same (n := n) (f := fun x => { x with timestamp := tic })
    (fun _ => rfl) (fun _ => rfl) rfl rfl
  clock := fun _ _ h => h
  split := fun _ _ _ hok hsplit h =>
    Eq.trans h (total_splitAt hok.toWf hsplit divides_swaGauges).symm

theorem gauged_insertKeeps : InsertKeeps Gauged where
  toMatchKeeps := gauged_matchKeeps
  child := fun c parent ids kv tombstone r hok hc hadd h => by
    rw [addChild] at hadd
    by_cases hlen : kv.length = ids.length
    swap
    · rw [if_pos hlen] at hadd
      cases hadd
    rw [if_neg (not_not.mpr hlen), Option.some.injEq] at hadd
    have hleaf : SwaWf (c.toRadixTree.addLeaf parent ids kv ((c.clk + 1) * eventStride)).1 :=
      hok.toSwaWf.addLeaf ⟨hc.inTree, hc.pos, hc.pages, hlen, hc.fresh⟩
    let d : SWARadixCache := { c with
      toRadixTree := (c.toRadixTree.addLeaf parent ids kv ((c.clk + 1) * eventStride)).1
      fullEvictable := c.fullEvictable + ids.length
      swaEvictable := c.swaEvictable + ids.length }
    have hd : d.Gauged := by
      rw [Gauged] at h ⊢
      show _ = (c.toRadixTree.addLeaf parent ids kv ((c.clk + 1) * eventStride)).1.total _
      rw [total_addLeaf, ← h]
      exact Prod.ext (Prod.ext rfl (add_zero _).symm) (Prod.ext rfl (add_zero _).symm)
    have hnew := addLeaf_new c.toRadixTree parent ids kv ((c.clk + 1) * eventStride)
    subst hadd
    refine hd.modify (n := c.next) (f := .setTombstone tombstone) hleaf.toWf ?_ ?_ rfl ?_
    · exact congrArg Node.linked hnew
    · exact congrArg Node.linked hnew
    · show _ + ((c.toRadixTree.addLeaf parent ids kv _).1.node c.next).swaGauges =
        _ + (((c.toRadixTree.addLeaf parent ids kv _).1.node c.next).setTombstone
          tombstone).swaGauges
      rw [hnew]
      cases tombstone with
      | false => rfl
      | true => simp [d, gauges, Node.swaGauges, Node.sizes, Node.swaSizes, Node.setTombstone,
          Node.length]
  revive := fun c child kv d hok hl htomb href hrev h => by
    rw [revive] at hrev
    split at hrev
    · cases hrev
    cases hrev
    refine h.modify hok.toWf hl (f := .adopt kv ((c.clk + 1) * eventStride)) hl rfl ?_
    simp [gauges, Node.swaGauges, Node.sizes, Node.swaSizes, Node.adopt, Node.length, htomb, href,
      hok.unlocked child htomb]

-- ---------------------------------------------------------------------------
-- Locks
-- ---------------------------------------------------------------------------

theorem Gauged.incFullRef (h : c.Gauged) (hw : c.Wf) (hn : (c.node n).linked = true) :
    (c.incFullRef n).Gauged := by
  refine h.modify hw hn (f := Node.addRef) hn rfl (Prod.ext ?_ rfl)
  by_cases hz : (c.node n).refCount = 0
  · simp [SWARadixCache.incFullRef, gauges, Node.swaGauges, Node.sizes, Node.addRef, Node.length,
      hz]
  · simp [SWARadixCache.incFullRef, gauges, Node.swaGauges, Node.sizes, Node.addRef, Node.length,
      hz]

theorem Gauged.incSwaRef (h : c.Gauged) (hw : c.Wf) (hn : (c.node n).linked = true)
    (hlive : (c.node n).swaTombstone = false) : (c.incSwaRef n).Gauged := by
  refine h.modify hw hn (f := Node.addSwaRef) hn rfl (Prod.ext rfl ?_)
  by_cases hz : (c.node n).swaRefCount = 0
  · simp [SWARadixCache.incSwaRef, gauges, Node.swaGauges, Node.swaSizes, Node.addSwaRef,
      Node.length, hz, hlive]
  · simp [SWARadixCache.incSwaRef, gauges, Node.swaGauges, Node.swaSizes, Node.addSwaRef,
      Node.length, hz, hlive]

theorem Gauged.decFullRef (h : c.Gauged) (hw : c.Wf) (hn : (c.node n).linked = true)
    (hdec : c.decFullRef n = some c') : c'.Gauged := by
  rw [SWARadixCache.decFullRef] at hdec
  split at hdec
  · cases hdec
  rename_i hpos
  cases hdec
  refine h.modify hw hn (f := Node.dropRef) hn rfl (Prod.ext ?_ rfl)
  by_cases hone : (c.node n).refCount = 1
  · simp [gauges, Node.swaGauges, Node.sizes, Node.dropRef, Node.length, hone]
  · have hne : (c.node n).refCount - 1 ≠ 0 := by omega
    simp [gauges, Node.swaGauges, Node.sizes, Node.dropRef, Node.length, hone, hpos, hne]

theorem Gauged.decSwaRef (h : c.Gauged) (hw : c.Wf) (hn : (c.node n).linked = true)
    (hlive : (c.node n).swaTombstone = false) (hpos : 0 < (c.node n).swaRefCount) :
    (c.decSwaRef n).Gauged := by
  refine h.modify hw hn (f := Node.dropSwaRef) hn rfl (Prod.ext rfl ?_)
  by_cases hone : (c.node n).swaRefCount = 1
  · simp [SWARadixCache.decSwaRef, gauges, Node.swaGauges, Node.swaSizes, Node.dropSwaRef,
      Node.length, hone, hlive]
  · have hne : (c.node n).swaRefCount - 1 ≠ 0 := by omega
    simp [SWARadixCache.decSwaRef, gauges, Node.swaGauges, Node.swaSizes, Node.dropSwaRef,
      Node.length, hone, hlive, Nat.ne_of_gt hpos, hne]

theorem Gauged.markBoundary (h : c.Gauged) (n : NodeId) : (c.markBoundary n).1.Gauged := by
  rw [SWARadixCache.markBoundary]
  split
  · exact h
  · exact h.same (n := n) (f := .setSwaUuid (c.uuid + 1)) (fun _ => rfl) (fun _ => rfl) rfl rfl

theorem linked_incFullRef (c : SWARadixCache) (n m : NodeId) :
    ((c.incFullRef n).node m).linked = (c.node m).linked :=
  field_modify Node.linked (f := Node.addRef) (fun _ => rfl) rfl m

theorem incLockAt_linked (s : SWARadixCache × Option Nat × Nat) (cur m : NodeId) :
    ((incLockAt s cur).1.node m).linked = (s.1.node m).linked := by
  have hfull := linked_incFullRef s.1 cur m
  have hswa : (((s.1.incFullRef cur).incSwaRef cur).node m).linked = (s.1.node m).linked :=
    (field_modify Node.linked (f := Node.addSwaRef) (fun _ => rfl) rfl m).trans hfull
  rw [incLockAt]
  split
  swap
  · exact hfull
  dsimp only
  split
  swap
  · exact hswa
  rw [markBoundary]
  split
  · exact hswa
  · exact (field_modify Node.linked (f := .setSwaUuid _) (fun _ => rfl) rfl m).trans hswa

theorem Gauged.incLockAt {s : SWARadixCache × Option Nat × Nat} (h : s.1.Gauged) (hw : s.1.Ok)
    (hn : (s.1.node n).linked = true) : (incLockAt s n).1.Gauged := by
  have hfull := h.incFullRef hw.toWf hn
  have hok : (s.1.incFullRef n).Ok := hw.recolor (recolors_addRef _) rfl rfl
  rw [SWARadixCache.incLockAt]
  split
  swap
  · exact hfull
  rename_i hif
  have hswa := hfull.incSwaRef hok.toWf ((linked_incFullRef s.1 n n).trans hn) hif.2
  dsimp only
  split
  · exact hswa.markBoundary n
  · exact hswa

theorem Gauged.incLock (h : c.Gauged) (hw : c.Ok) (hn : c.InTree n) : (c.incLock n).1.Gauged := by
  have hl := hw.linked_of_mem_rootPath hn
  have key : ∀ (path : List NodeId) (s : SWARadixCache × Option Nat × Nat), s.1.Ok → s.1.Gauged →
      (∀ m ∈ path, (s.1.node m).linked = true) → (path.foldl SWARadixCache.incLockAt s).1.Gauged := by
    intro path
    induction path with
    | nil => exact fun _ _ hs _ => hs
    | cons a path ih =>
      intro s hok hs hl
      refine ih _ (incLockAt_ok hok a) (hs.incLockAt hok (hl a List.mem_cons_self)) fun m hm => ?_
      rw [incLockAt_linked]
      exact hl m (List.mem_cons_of_mem _ hm)
  exact key _ _ hw h hl

theorem decLockAt_linked {uuid : Option Nat} {s s' : SWARadixCache × Bool} {cur : NodeId}
    (hok : s.1.Ok) (hdec : decLockAt uuid s cur = some s') (m : NodeId) :
    (s'.1.node m).linked = (s.1.node m).linked := by
  obtain ⟨d, hfull, rfl⟩ := Option.map_eq_some_iff.mp hdec
  have hd := (decFullRef_ok hok hfull).2 m
  split
  · exact (field_modify Node.linked (f := Node.dropSwaRef) (fun _ => rfl) rfl m).trans hd
  · exact hd

theorem Gauged.decLockAt {uuid : Option Nat} {s s' : SWARadixCache × Bool} (h : s.1.Gauged)
    (hw : s.1.Ok) (hn : (s.1.node n).linked = true)
    (hdec : SWARadixCache.decLockAt uuid s n = some s') : s'.1.Gauged := by
  obtain ⟨d, hfull, rfl⟩ := Option.map_eq_some_iff.mp hdec
  have hd := h.decFullRef hw.toWf hn hfull
  obtain ⟨hdok, hdl⟩ := decFullRef_ok hw hfull
  split
  · rename_i hif
    rw [Bool.and_eq_true, Bool.and_eq_true, decide_eq_true_iff, Bool.not_eq_true'] at hif
    exact hd.decSwaRef hdok.toWf ((hdl n).trans hn) hif.1.2 hif.2
  · exact hd

theorem Gauged.decLock {uuid : Option Nat} {skipSwa : Bool} (h : c.Gauged) (hw : c.Ok)
    (hn : c.InTree n) (hdec : c.decLock n uuid skipSwa = some c') : c'.Gauged := by
  have hl := hw.linked_of_mem_rootPath hn
  obtain ⟨s, hrun, rfl⟩ := Option.map_eq_some_iff.mp hdec
  have key : ∀ (path : List NodeId) (s s' : SWARadixCache × Bool), s.1.Ok → s.1.Gauged →
      (∀ m ∈ path, (s.1.node m).linked = true) →
      path.foldlM (SWARadixCache.decLockAt uuid) s = some s' → s'.1.Gauged := by
    intro path
    induction path with
    | nil =>
      intro s s' _ hs _ hrun
      cases hrun
      exact hs
    | cons a path ih =>
      intro s s' hok hs hl hrun
      rw [List.foldlM_cons] at hrun
      obtain ⟨s1, h1, hrun⟩ := Option.bind_eq_some_iff.mp hrun
      refine ih _ _ (decLockAt_ok hok h1) (hs.decLockAt hok (hl a List.mem_cons_self) h1)
        (fun m hm => ?_) hrun
      rw [decLockAt_linked hok h1]
      exact hl m (List.mem_cons_of_mem _ hm)
  exact key _ _ _ hw h hl hrun

-- ---------------------------------------------------------------------------
-- Eviction
-- ---------------------------------------------------------------------------

theorem Gauged.entomb (h : c.Gauged) (hw : c.Wf) (hn : (c.node n).linked = true)
    (hlive : (c.node n).swaTombstone = false) (href : (c.node n).swaRefCount = 0) :
    (c.entomb n).Gauged := by
  refine h.modify hw hn (f := .setTombstone true) hn rfl ?_
  simp [SWARadixCache.entomb, gauges, Node.swaGauges, Node.sizes, Node.swaSizes, Node.setTombstone,
    Node.length, hlive, href]

theorem Gauged.dropNode (h : c.Gauged) (hw : c.Wf) (hn : (c.node n).linked = true)
    (href : (c.node n).refCount = 0) (htomb : (c.node n).swaTombstone = true) :
    (c.dropNode n).Gauged := by
  have htot := total_unlink Node.swaGauges hw hn
  refine add_right_cancel (b := (c.node n).swaGauges) ?_
  show (c.dropNode n).gauges + _ = (c.unlink n).total Node.swaGauges + _
  rw [htot, ← h]
  simp [SWARadixCache.dropNode, gauges, Node.swaGauges, Node.sizes, Node.swaSizes, Node.length,
    href, htomb]

theorem Gauged.dropLive (h : c.Gauged) (hw : c.Wf) (hn : (c.node n).linked = true)
    (href : (c.node n).refCount = 0) (hlive : (c.node n).swaTombstone = false)
    (hswa : (c.node n).swaRefCount = 0) : ({ c.dropNode n with
      swaEvictable := (c.dropNode n).swaEvictable - (c.node n).length } :
        SWARadixCache).Gauged := by
  have htot := total_unlink Node.swaGauges hw hn
  refine add_right_cancel (b := (c.node n).swaGauges) ?_
  show gauges _ + _ = (c.unlink n).total Node.swaGauges + _
  rw [htot, ← h]
  simp [SWARadixCache.dropNode, gauges, Node.swaGauges, Node.sizes, Node.swaSizes, Node.length,
    href, hlive, hswa]

end SWARadixCache

end FreeToken.KvCache
