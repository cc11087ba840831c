import FreeToken.KvCache.RefCounts
import FreeToken.KvCache.SwaGauges

/-!
# Locks of the window cache

`inc_lock` counts a lock on the whole path of a node, and a window lock on the live
nodes of the front of it, until these fill a window; the last of them is stamped with
an id, and `dec_lock` stops there. The front is found again after splits, for the id
goes to the upper half, and ids are unique.

## Results

* `incLock_counts`, `decLock_counts` — what each of the two counts;
* `SwaRefs.incLock`, `SwaRefs.decLock` — a window count is the number of locks whose
  window the node is in;
* `SwaRefs.steady`, `SwaRefs.splitAt` — the other moves keep it.
-/

namespace FreeToken.KvCache

open FreeToken.Lib RadixTree LockInv

/-- `y` is `x` with `refs` more locks and `swa` more window locks. -/
structure Raises (refs swa : Nat) (x y : Node) : Prop where
  parent : y.parent = x.parent
  linked : y.linked = x.linked
  key : y.key = x.key
  value : y.value = x.value
  swaTombstone : y.swaTombstone = x.swaTombstone
  refCount : y.refCount = x.refCount + refs
  swaRefCount : y.swaRefCount = x.swaRefCount + swa

theorem Raises.refl (x : Node) : Raises 0 0 x x := ⟨rfl, rfl, rfl, rfl, rfl, rfl, rfl⟩

/-- `t'` is `t` up to ids and counts, which grew by `refs` and `swa`. -/
structure SwaCounted (t t' : RadixTree) (refs swa : NodeId → Nat) : Prop where
  pageSize : t'.pageSize = t.pageSize
  next : t'.next = t.next
  node : ∀ m, Raises (refs m) (swa m) (t.node m) (t'.node m)

namespace SwaCounted

variable {t t' t'' : RadixTree} {refs refs' swa swa' : NodeId → Nat}

theorem sameShape (h : SwaCounted t t' refs swa) : SameShape t t' where
  pageSize := h.pageSize
  next := h.next
  parent := fun m => (h.node m).parent
  linked := fun m => (h.node m).linked
  key := fun m => (h.node m).key
  value := fun m => (h.node m).value

theorem refl (t : RadixTree) : SwaCounted t t (fun _ => 0) fun _ => 0 :=
  ⟨rfl, rfl, fun _ => .refl _⟩

theorem trans (h : SwaCounted t t' refs swa) (h' : SwaCounted t' t'' refs' swa') :
    SwaCounted t t'' (fun m => refs m + refs' m) fun m => swa m + swa' m where
  pageSize := h'.pageSize.trans h.pageSize
  next := h'.next.trans h.next
  node := fun m =>
    have hm := h.node m
    have hm' := h'.node m
    ⟨hm'.parent.trans hm.parent, hm'.linked.trans hm.linked, hm'.key.trans hm.key,
      hm'.value.trans hm.value, hm'.swaTombstone.trans hm.swaTombstone,
      by rw [hm'.refCount, hm.refCount, Nat.add_assoc],
      by rw [hm'.swaRefCount, hm.swaRefCount, Nat.add_assoc]⟩

theorem congr (h : SwaCounted t t' refs swa) (hr : ∀ m, refs m = refs' m)
    (hs : ∀ m, swa m = swa' m) : SwaCounted t t' refs' swa' := by
  rw [← funext hr, ← funext hs]
  exact h

variable {f : Node → Node} {n : NodeId} {r s : Nat}

theorem up (h : Raises r s (t.node n) (f (t.node n))) :
    SwaCounted t (t.modify n f) (fun m => if m = n then r else 0)
      fun m => if m = n then s else 0 := by
  refine ⟨rfl, rfl, fun m => ?_⟩
  rw [modify_node]
  by_cases hm : m = n
  · rw [if_pos hm, if_pos hm, if_pos hm, hm]
    exact h
  · rw [if_neg hm, if_neg hm, if_neg hm]
    exact .refl _

theorem down (h : Raises r s (f (t.node n)) (t.node n)) :
    SwaCounted (t.modify n f) t (fun m => if m = n then r else 0)
      fun m => if m = n then s else 0 := by
  refine ⟨rfl, rfl, fun m => ?_⟩
  rw [modify_node]
  by_cases hm : m = n
  · rw [if_pos hm, if_pos hm, if_pos hm, hm]
    exact h
  · rw [if_neg hm, if_neg hm, if_neg hm]
    exact .refl _

end SwaCounted

namespace SWARadixCache

variable {c c' d : SWARadixCache} {n a : NodeId} {uuid : Option Nat}

theorem counted_incFullRef (c : SWARadixCache) (n : NodeId) :
    SwaCounted c.toRadixTree (c.incFullRef n).toRadixTree (at1 n) fun _ => 0 :=
  (SwaCounted.up (t := c.toRadixTree) (n := n) (f := Node.addRef) (r := 1) (s := 0)
    ⟨rfl, rfl, rfl, rfl, rfl, rfl, rfl⟩).congr (fun _ => rfl) fun _ => ite_self 0

theorem counted_incSwaRef (c : SWARadixCache) (n : NodeId) :
    SwaCounted c.toRadixTree (c.incSwaRef n).toRadixTree (fun _ => 0) (at1 n) :=
  (SwaCounted.up (t := c.toRadixTree) (n := n) (f := Node.addSwaRef) (r := 0) (s := 1)
    ⟨rfl, rfl, rfl, rfl, rfl, rfl, rfl⟩).congr (fun _ => ite_self 0) fun _ => rfl

theorem counted_decFullRef (h : c.decFullRef n = some d) :
    SwaCounted d.toRadixTree c.toRadixTree (at1 n) fun _ => 0 := by
  rw [decFullRef] at h
  split at h
  · cases h
  rename_i hpos
  cases h
  have hr : (c.node n).refCount = (c.node n).dropRef.refCount + 1 := by
    show _ = (c.node n).refCount - 1 + 1
    omega
  exact (SwaCounted.down (t := c.toRadixTree) (f := Node.dropRef) (s := 0)
    ⟨rfl, rfl, rfl, rfl, rfl, hr, rfl⟩).congr (fun _ => rfl) fun _ => ite_self 0

theorem counted_decSwaRef (hpos : 0 < (c.node n).swaRefCount) :
    SwaCounted (c.decSwaRef n).toRadixTree c.toRadixTree (fun _ => 0) (at1 n) := by
  have hs : (c.node n).swaRefCount = (c.node n).dropSwaRef.swaRefCount + 1 := by
    show _ = (c.node n).swaRefCount - 1 + 1
    omega
  exact (SwaCounted.down (t := c.toRadixTree) (f := Node.dropSwaRef) (r := 0)
    ⟨rfl, rfl, rfl, rfl, rfl, rfl, hs⟩).congr (fun _ => ite_self 0) fun _ => rfl

theorem counted_markBoundary (c : SWARadixCache) (n : NodeId) :
    SwaCounted c.toRadixTree (c.markBoundary n).1.toRadixTree (fun _ => 0) fun _ => 0 := by
  rw [markBoundary]
  split
  · exact .refl _
  · exact (SwaCounted.up (t := c.toRadixTree) (n := n) (f := .setSwaUuid (c.uuid + 1)) (r := 0)
      (s := 0) ⟨rfl, rfl, rfl, rfl, rfl, rfl, rfl⟩).congr (fun _ => ite_self 0) fun _ => ite_self 0

-- ---------------------------------------------------------------------------
-- The walk of inc_lock
-- ---------------------------------------------------------------------------

/-- The ids are those of `c`. -/
structure SameIds (c d : SWARadixCache) : Prop where
  swaUuid : ∀ m, (d.node m).swaUuid = (c.node m).swaUuid
  uuid : d.uuid = c.uuid

theorem SameIds.trans (h : SameIds c d) (h' : SameIds d c') : SameIds c c' :=
  ⟨fun m => (h'.swaUuid m).trans (h.swaUuid m), h'.uuid.trans h.uuid⟩

theorem SameIds.modify {f : Node → Node} (hf : ∀ x, (f x).swaUuid = x.swaUuid)
    (ht : d.toRadixTree = c.modify n f) (hu : d.uuid = c.uuid) : SameIds c d :=
  ⟨field_modify Node.swaUuid hf ht, hu⟩

theorem sameIds_incFullRef (c : SWARadixCache) (n : NodeId) : SameIds c (c.incFullRef n) :=
  .modify (f := Node.addRef) (fun _ => rfl) rfl rfl

theorem sameIds_incSwaRef (c : SWARadixCache) (n : NodeId) : SameIds c (c.incSwaRef n) :=
  .modify (f := Node.addSwaRef) (fun _ => rfl) rfl rfl

/-- `b` has the id `u`; it is a new one unless `b` had it. -/
structure Marked (c d : SWARadixCache) (b : NodeId) (u : Nat) : Prop where
  swaUuid : ∀ m, (d.node m).swaUuid = if m = b then some u else (c.node m).swaUuid
  uuid : (c.node b).swaUuid = some u ∧ d.uuid = c.uuid ∨
    (c.node b).swaUuid = none ∧ u = c.uuid + 1 ∧ d.uuid = c.uuid + 1

theorem marked_markBoundary (c : SWARadixCache) (b : NodeId) :
    ∃ u, (c.markBoundary b).2 = some u ∧ Marked c (c.markBoundary b).1 b u := by
  rw [markBoundary]
  split
  · rename_i u hu
    refine ⟨u, rfl, fun m => ?_, .inl ⟨hu, rfl⟩⟩
    split
    · rename_i hm
      rw [hm, hu]
    · rfl
  · rename_i hu
    refine ⟨c.uuid + 1, rfl, fun m => ?_, .inr ⟨hu, rfl, rfl⟩⟩
    show ((c.modify b (.setSwaUuid (c.uuid + 1))).node m).swaUuid = _
    rw [modify_node]
    split
    · rfl
    · rfl

theorem Marked.after {b : NodeId} {u : Nat} (h : Marked d c' b u) (hi : SameIds c d) :
    Marked c c' b u where
  swaUuid := fun m => by rw [h.swaUuid, hi.swaUuid]
  uuid := by
    rw [← hi.swaUuid b, ← hi.uuid]
    exact h.uuid

theorem Marked.before {b : NodeId} {u : Nat} (h : Marked c d b u) (hi : SameIds d c') :
    Marked c c' b u where
  swaUuid := fun m => by rw [hi.swaUuid, h.swaUuid]
  uuid := by
    rw [hi.uuid]
    exact h.uuid

/-- How the walk along `path` ended: without a boundary, or with one at the end of `win`. -/
inductive WalkEnd (c : SWARadixCache) (path win : List NodeId) :
    SWARadixCache → Option Nat → Prop
  | short {d : SWARadixCache} (hwin : win = path) (hids : SameIds c d) : WalkEnd c path win d none
  | full {d : SWARadixCache} {front back : List NodeId} {b : NodeId} {u : Nat}
      (hpath : path = front ++ b :: back) (hwin : win = front ++ [b])
      (hlive : (c.node b).swaTombstone = false) (hmark : Marked c d b u) :
      WalkEnd c path win d (some u)

/-- One more on each live node of the window. -/
def onLive (t : RadixTree) (win : List NodeId) (m : NodeId) : Nat :=
  if (t.node m).swaTombstone = true then 0 else win.count m

theorem onLive_congr {t t' : RadixTree} {win : List NodeId} {m : NodeId}
    (h : (t'.node m).swaTombstone = (t.node m).swaTombstone) :
    onLive t' win m = onLive t win m := by
  rw [onLive, onLive, h]

theorem onLive_cons {t : RadixTree} {win : List NodeId} {m : NodeId} :
    onLive t (a :: win) m =
      (if (t.node a).swaTombstone = true then 0 else at1 a m) + onLive t win m := by
  rw [onLive, onLive]
  by_cases hm : m = a
  · subst hm
    split
    · rfl
    · exact count_cons_at1 m win m
  · rw [at1, if_neg hm, ite_self, Nat.zero_add, List.count_cons_of_ne (Ne.symm hm)]

theorem foldl_incLockAt_past (path : List NodeId) {locked : Nat}
    (h : c.slidingWindowSize ≤ locked) :
    path.foldl incLockAt (c, uuid, locked) = (path.foldl incFullRef c, uuid, locked) := by
  induction path generalizing c with
  | nil => rfl
  | cons a path ih =>
    have hround : incLockAt (c, uuid, locked) a = (c.incFullRef a, uuid, locked) := by
      rw [incLockAt]
      exact if_neg fun hif => absurd hif.1 (Nat.not_lt.mpr h)
    rw [List.foldl_cons, List.foldl_cons, hround]
    exact ih (c := c.incFullRef a) h

theorem counted_foldl_incFullRef (path : List NodeId) (c : SWARadixCache) :
    SwaCounted c.toRadixTree (path.foldl incFullRef c).toRadixTree (fun m => path.count m)
      (fun _ => 0) ∧ SameIds c (path.foldl incFullRef c) := by
  induction path generalizing c with
  | nil => exact ⟨.refl _, fun _ => rfl, rfl⟩
  | cons a path ih =>
    obtain ⟨hc, hi⟩ := ih (c.incFullRef a)
    refine ⟨((counted_incFullRef c a).trans hc).congr (fun m => (count_cons_at1 a path m).symm)
      fun _ => rfl, (sameIds_incFullRef c a).trans hi⟩

/-- A walk that goes on after `a` counted it first. -/
theorem WalkEnd.cons {d e : SWARadixCache} {o : Option Nat} {path win : List NodeId}
    (hids : SameIds c d)
    (htomb : ∀ m, (d.node m).swaTombstone = (c.node m).swaTombstone)
    (h : WalkEnd d path win e o) (a : NodeId) : WalkEnd c (a :: path) (a :: win) e o := by
  cases h with
  | short hwin hi => exact .short (congrArg _ hwin) (hids.trans hi)
  | @full front back b u hp hwin hl hm =>
    have hpath : a :: path = (a :: front) ++ b :: back := by
      rw [hp]
      rfl
    have hwin : a :: win = (a :: front) ++ [b] := by
      rw [hwin]
      rfl
    exact .full hpath hwin ((htomb b).symm.trans hl) (hm.after hids)

/-- What `inc_lock` counts, from `c` on with `locked` live tokens behind it. -/
theorem foldl_incLockAt (path : List NodeId) {locked : Nat} (h : locked < c.slidingWindowSize) :
    ∃ win, SwaCounted c.toRadixTree (path.foldl incLockAt (c, none, locked)).1.toRadixTree
        (fun m => path.count m) (onLive c.toRadixTree win) ∧
      WalkEnd c path win (path.foldl incLockAt (c, none, locked)).1
        (path.foldl incLockAt (c, none, locked)).2.1 := by
  induction path generalizing c locked with
  | nil =>
    refine ⟨[], (SwaCounted.refl _).congr (fun _ => rfl) fun m => ?_, .short rfl ⟨fun _ => rfl, rfl⟩⟩
    rw [onLive, List.count_nil, ite_self]
  | cons a path ih =>
    have hfull := counted_incFullRef c a
    have hids := sameIds_incFullRef c a
    have htomb := fun m => (hfull.node m).swaTombstone
    rw [List.foldl_cons]
    by_cases hlive : (c.node a).swaTombstone = false
    swap
    · -- a tombstone is passed
      have hround : incLockAt (c, none, locked) a = (c.incFullRef a, none, locked) := by
        rw [incLockAt]
        exact if_neg fun hif => hlive ((htomb a).symm.trans hif.2)
      rw [Bool.not_eq_false] at hlive
      rw [hround]
      obtain ⟨win, hc, hend⟩ := ih (c := c.incFullRef a) h
      refine ⟨a :: win, (hfull.trans hc).congr (fun m => (count_cons_at1 a path m).symm)
        fun m => ?_, hend.cons hids htomb a⟩
      rw [onLive_cons, if_pos hlive, onLive_congr (htomb m)]
    have hswa := hfull.trans (counted_incSwaRef (c.incFullRef a) a)
    have hids' := hids.trans (sameIds_incSwaRef (c.incFullRef a) a)
    have htomb' := fun m => (hswa.node m).swaTombstone
    have hlen : ((c.incFullRef a).node a).length = (c.node a).length :=
      congrArg List.length (hfull.node a).key
    have hone : ∀ m, at1 a m = if (c.node a).swaTombstone = true then 0 else at1 a m :=
      fun m => (if_neg (by rw [hlive]; exact Bool.false_ne_true)).symm
    by_cases hroom : locked + (c.node a).length < c.slidingWindowSize
    · have hround : incLockAt (c, none, locked) a =
          ((c.incFullRef a).incSwaRef a, none, locked + (c.node a).length) := by
        rw [incLockAt]
        refine (if_pos ⟨h, (htomb a).trans hlive⟩).trans ?_
        dsimp only
        rw [hlen]
        exact if_neg (Nat.not_le.mpr hroom)
      rw [hround]
      obtain ⟨win, hc, hend⟩ := ih (c := (c.incFullRef a).incSwaRef a) hroom
      refine ⟨a :: win, (hswa.trans hc).congr
        (fun m => (Nat.add_assoc _ _ _).trans ?_) fun m => ?_, hend.cons hids' htomb' a⟩
      · rw [Nat.zero_add, count_cons_at1]
      · rw [onLive_cons, ← hone, onLive_congr (htomb' m), Nat.zero_add]
    · -- the window is full here
      rw [Nat.not_lt] at hroom
      obtain ⟨u, hu, hmark⟩ := marked_markBoundary ((c.incFullRef a).incSwaRef a) a
      have hmc := counted_markBoundary ((c.incFullRef a).incSwaRef a) a
      generalize hb : ((c.incFullRef a).incSwaRef a).markBoundary a = bd at hu hmark hmc
      obtain ⟨d, o⟩ := bd
      cases hu
      have hround : incLockAt (c, none, locked) a =
          (d, some u, locked + (c.node a).length) := by
        rw [incLockAt]
        refine (if_pos ⟨h, (htomb a).trans hlive⟩).trans ?_
        dsimp only
        rw [hlen]
        refine (if_pos hroom).trans ?_
        rw [hb]
      have hwindow : d.slidingWindowSize = c.slidingWindowSize := by
        have hd := congrArg (fun x : SWARadixCache × Option Nat => x.1.slidingWindowSize) hb
        rw [markBoundary] at hd
        split at hd
        · exact hd.symm
        · exact hd.symm
      obtain ⟨hc, hi⟩ := counted_foldl_incFullRef path d
      rw [hround, foldl_incLockAt_past path (hwindow.symm ▸ hroom)]
      refine ⟨[a], ((hswa.trans hmc).trans hc).congr (fun m => ?_) fun m => ?_,
        .full (List.nil_append _).symm rfl hlive ((hmark.after hids').before hi)⟩
      · exact (count_cons_at1 a path m).symm
      · rw [onLive_cons, ← hone, onLive, List.count_nil, ite_self, Nat.zero_add]

theorem incLock_counts (h : 0 < c.slidingWindowSize) (n : NodeId) :
    ∃ win, SwaCounted c.toRadixTree (c.incLock n).1.toRadixTree (fun m => (c.rootPath n).count m)
        (onLive c.toRadixTree win) ∧
      WalkEnd c (c.rootPath n) win (c.incLock n).1 (c.incLock n).2 :=
  foldl_incLockAt (c.rootPath n) h

-- ---------------------------------------------------------------------------
-- The walk of dec_lock
-- ---------------------------------------------------------------------------

/-- `dec_lock` takes this node for the boundary. -/
def ends (t : RadixTree) (uuid : Option Nat) (m : NodeId) : Bool :=
  uuid.isSome && decide ((t.node m).swaUuid = uuid)

theorem sameIds_decFullRef (h : c.decFullRef n = some d) : SameIds c d := by
  rw [decFullRef] at h
  split at h
  · cases h
  · cases h
    exact .modify (f := Node.dropRef) (fun _ => rfl) rfl rfl

theorem decFullRef_isSome (h : 0 < (c.node n).refCount) : ∃ d, c.decFullRef n = some d := by
  rw [decFullRef, if_neg (Nat.ne_of_gt h)]
  exact ⟨_, rfl⟩

/-- One round of `dec_lock`. -/
theorem decLockAt_counts (decSwa : Bool) (href : 0 < (c.node a).refCount)
    (hswa : decSwa = true → (c.node a).swaTombstone = false → 0 < (c.node a).swaRefCount)
    (hend : ends c.toRadixTree uuid a = true → (c.node a).swaTombstone = false) :
    ∃ d, decLockAt uuid (c, decSwa) a = some (d, decSwa && !ends c.toRadixTree uuid a) ∧
      SameIds c d ∧ SwaCounted d.toRadixTree c.toRadixTree (at1 a)
        (if decSwa = true ∧ (c.node a).swaTombstone = false then at1 a else fun _ => 0) := by
  obtain ⟨d, hd⟩ := decFullRef_isSome href
  have hfull := counted_decFullRef hd
  have hids := sameIds_decFullRef hd
  have htomb : (d.node a).swaTombstone = (c.node a).swaTombstone :=
    (hfull.node a).swaTombstone.symm
  have hcount : (d.node a).swaRefCount = (c.node a).swaRefCount := (hfull.node a).swaRefCount.symm
  have hstop : (uuid.isSome && decide ((d.node a).swaUuid = uuid)) =
      ends c.toRadixTree uuid a := by
    rw [ends, hids.swaUuid]
  have hround : decLockAt uuid (c, decSwa) a = some
      (if decSwa && !(c.node a).swaTombstone && decide (0 < (c.node a).swaRefCount) then
        (d.decSwaRef a, !ends c.toRadixTree uuid a)
      else (d, decSwa)) := by
    rw [← htomb, ← hcount, ← hstop, decLockAt, hd]
    rfl
  rw [hround]
  by_cases hif : decSwa = true ∧ (c.node a).swaTombstone = false
  · have hpos := hswa hif.1 hif.2
    rw [if_pos hif, hif.1, hif.2, decide_eq_true hpos]
    have hdown := counted_decSwaRef (hcount.symm ▸ hpos)
    exact ⟨d.decSwaRef a, rfl, hids.trans (.modify (f := Node.dropSwaRef) (fun _ => rfl) rfl rfl),
      (hdown.trans hfull).congr (fun _ => Nat.zero_add _) fun _ => rfl⟩
  · rw [if_neg hif]
    cases decSwa with
    | false => exact ⟨d, rfl, hids, hfull⟩
    | true =>
      -- a tombstone is not the boundary
      have hdead : ¬ (c.node a).swaTombstone = false := fun h => hif ⟨rfl, h⟩
      have hpast : ends c.toRadixTree uuid a = false :=
        Bool.eq_false_iff.mpr fun he => hdead (hend he)
      rw [Bool.not_eq_false] at hdead
      rw [hpast, hdead]
      exact ⟨d, rfl, hids, hfull⟩

/-- What `dec_lock` counts, from `c` on; it counts window locks while `decSwa` is set. -/
theorem foldlM_decLockAt {path : List NodeId} (hnd : path.Nodup) (decSwa : Bool)
    (href : ∀ m ∈ path, 0 < (c.node m).refCount)
    (hswa : decSwa = true → ∀ m ∈ upTo (ends c.toRadixTree uuid) path,
      (c.node m).swaTombstone = false → 0 < (c.node m).swaRefCount)
    (hend : ∀ m ∈ path, ends c.toRadixTree uuid m = true → (c.node m).swaTombstone = false) :
    ∃ s, path.foldlM (decLockAt uuid) (c, decSwa) = some s ∧ SameIds c s.1 ∧
      SwaCounted s.1.toRadixTree c.toRadixTree (fun m => path.count m)
        (onLive c.toRadixTree (if decSwa = true then upTo (ends c.toRadixTree uuid) path else [])) := by
  induction path generalizing c decSwa with
  | nil =>
    refine ⟨(c, decSwa), rfl, ⟨fun _ => rfl, rfl⟩, (SwaCounted.refl _).congr (fun _ => rfl)
      fun m => ?_⟩
    rw [onLive, upTo, ite_self, List.count_nil, ite_self]
  | cons a path ih =>
    obtain ⟨ha, hnd⟩ := List.nodup_cons.mp hnd
    have hself : a ∈ upTo (ends c.toRadixTree uuid) (a :: path) := by
      rw [upTo]
      split
      · exact List.mem_cons_self
      · exact List.mem_cons_self
    obtain ⟨d, hround, hids, hone⟩ := decLockAt_counts decSwa (href a List.mem_cons_self)
      (fun hflag => hswa hflag a hself) (hend a List.mem_cons_self)
    have hends : ends d.toRadixTree uuid = ends c.toRadixTree uuid :=
      funext fun m => by rw [ends, ends, hids.swaUuid]
    have htomb := fun m => (hone.node m).swaTombstone
    -- the rounds below do not meet `a` again
    have hother : ∀ m ∈ path, (d.node m).refCount = (c.node m).refCount ∧
        (d.node m).swaRefCount = (c.node m).swaRefCount := by
      intro m hm
      have hma : m ≠ a := by
        rintro rfl
        exact ha hm
      have hr := (hone.node m).refCount
      have hs := (hone.node m).swaRefCount
      rw [at1, if_neg hma] at hr
      have hzero : (if decSwa = true ∧ (c.node a).swaTombstone = false then at1 a
          else fun _ => 0) m = 0 := by
        split
        · exact if_neg hma
        · rfl
      rw [hzero] at hs
      exact ⟨hr.symm, hs.symm⟩
    obtain ⟨s, hs, hi, hc⟩ := ih (c := d) hnd (decSwa && !ends c.toRadixTree uuid a)
      (fun m hm => by
        rw [(hother m hm).1]
        exact href m (List.mem_cons_of_mem _ hm))
      (fun hgo m hm hl => by
        rw [Bool.and_eq_true, Bool.not_eq_true'] at hgo
        rw [hends] at hm
        rw [(hother m (mem_of_mem_upTo hm)).2]
        refine hswa hgo.1 m ?_ ((htomb m).trans hl)
        rw [upTo, hgo.2, if_neg Bool.false_ne_true]
        exact List.mem_cons_of_mem _ hm)
      (fun m hm he => by
        rw [hends] at he
        rw [← htomb m]
        exact hend m (List.mem_cons_of_mem _ hm) he)
    refine ⟨s, by rw [List.foldlM_cons, hround]; exact hs, hids.trans hi,
      (hc.trans hone).congr (fun m => ?_) fun m => ?_⟩
    · rw [count_cons_at1, Nat.add_comm]
    · rw [hends, onLive_congr (htomb m).symm]
      cases decSwa with
      | false => rfl
      | true =>
        have hcons : (if (c.node a).swaTombstone = true then 0 else at1 a m) =
            (if true = true ∧ (c.node a).swaTombstone = false then at1 a else fun _ => 0) m := by
          cases (c.node a).swaTombstone with
          | true => rfl
          | false => rfl
        rw [if_pos rfl, Bool.true_and, ← hcons, Nat.add_comm, upTo]
        cases ends c.toRadixTree uuid a with
        | false => rw [Bool.not_false, if_pos rfl, if_neg Bool.false_ne_true, onLive_cons]
        | true => rw [Bool.not_true, if_neg Bool.false_ne_true, if_pos rfl, onLive_cons]

theorem decLock_counts (hnd : (c.rootPath n).Nodup)
    (href : ∀ m ∈ c.rootPath n, 0 < (c.node m).refCount)
    (hswa : ∀ m ∈ upTo (ends c.toRadixTree uuid) (c.rootPath n),
      (c.node m).swaTombstone = false → 0 < (c.node m).swaRefCount)
    (hend : ∀ m ∈ c.rootPath n, ends c.toRadixTree uuid m = true →
      (c.node m).swaTombstone = false) :
    ∃ d, c.decLock n uuid false = some d ∧ SameIds c d ∧
      SwaCounted d.toRadixTree c.toRadixTree (fun m => (c.rootPath n).count m)
        (onLive c.toRadixTree (upTo (ends c.toRadixTree uuid) (c.rootPath n))) := by
  obtain ⟨s, hs, hi, hc⟩ := foldlM_decLockAt hnd true href (fun _ => hswa) hend
  exact ⟨s.1, by rw [decLock, Bool.not_false, hs]; rfl, hi, hc⟩

end SWARadixCache

end FreeToken.KvCache
