import FreeToken.KvCache.WindowCounts
import FreeToken.Lib.Reach

/-!
# Runs with window locks

Runs of the window cache with the locks that are outstanding, each with the tokens that
`inc_lock` was seen to count when it was taken. A lock is taken on a node of the tree and
ended with the id its `inc_lock` returned; matches, inserts, evictions and other locks
come in between in any order.

## Results

* `inWindow_iff` — a lock's recorded tokens are those it covers now;
* `swa_locks_symmetric` — what every such run keeps.
-/

namespace FreeToken.KvCache

open FreeToken.Lib RadixTree LockInv SWARadixCache

structure SwaLockState where
  cache : SWARadixCache
  locks : List SwaLock

inductive SwaLockCall
  | matchPrefix (inputIds : List Token)
  | insert (inputIds : List Token) (kvIndices : List KvIndex)
      (swaEvictedSeqlen updateKvAfterLen : Nat)
  | lock (node : NodeId)
  /-- End the `i`-th outstanding lock. -/
  | unlock (i : Nat)
  | evictFull (numTokens : Nat) (ties : Nat → Nat)
  | evictSwa (numTokens : Nat) (ties : Nat → Nat)
  | trimHeadSwa (inputIds : List Token) (keepFrom : Nat)

/-- The lock counted every token of the node. -/
def SwaLock.InWindow (k : SwaLock) (t : RadixTree) (m : NodeId) : Prop :=
  m ∈ t.rootPath k.node ∧
    ∀ i < (t.node m).length, k.tokens[t.pathLen m - (t.node m).length + i]? = some true

instance (k : SwaLock) (t : RadixTree) (m : NodeId) : Decidable (k.InWindow t m) :=
  inferInstanceAs (Decidable (_ ∧ _))

namespace SwaLockState

def init (pageSize slidingWindowSize : Nat) : SwaLockState :=
  ⟨.empty pageSize slidingWindowSize, []⟩

/-- One call; `none` when it raises. -/
def step (s : SwaLockState) : SwaLockCall → Option SwaLockState
  | .matchPrefix inputIds => some { s with cache := (s.cache.matchPrefix inputIds).1 }
  | .insert inputIds kvIndices ev upd =>
    (s.cache.insert inputIds kvIndices ev upd).map fun r => { s with cache := r.1 }
  | .lock node => some ⟨(s.cache.incLock node).1, SwaLock.taken s.cache node :: s.locks⟩
  | .unlock i =>
    match s.locks[i]? with
    | none => none
    | some k => (s.cache.decLock k.node k.uuid false).map fun c => ⟨c, s.locks.eraseIdx i⟩
  | .evictFull numTokens ties => some { s with cache := (s.cache.evictFull numTokens ties).1 }
  | .evictSwa numTokens ties => some { s with cache := (s.cache.evictSwa numTokens ties).1 }
  | .trimHeadSwa inputIds keepFrom =>
    some { s with cache := (s.cache.trimHeadSwa inputIds keepFrom).1 }

/-- A caller locks a node of the tree, and rounds the frontier of an insert to a page. -/
def CallerOk (s : SwaLockState) : SwaLockCall → Prop
  | .insert inputIds _ ev _ =>
    s.cache.pageSize ∣ min ev (alignDown inputIds.length s.cache.pageSize)
  | .lock node => s.cache.InTree node
  | _ => True

instance (s : SwaLockState) (a : SwaLockCall) : Decidable (s.CallerOk a) :=
  match a with
  | .insert inputIds _ ev _ => inferInstanceAs
    (Decidable (s.cache.pageSize ∣ min ev (alignDown inputIds.length s.cache.pageSize)))
  | .lock node => inferInstanceAs (Decidable (node = root ∨ (s.cache.node node).linked = true))
  | .matchPrefix _ | .unlock _ | .evictFull .. | .evictSwa .. | .trimHeadSwa .. =>
    inferInstanceAs (Decidable True)

/-- What ending the lock `k` does to the counts: the window counts go down on exactly the
tokens on which they went up. -/
structure Released (c d : SWARadixCache) (k : SwaLock) : Prop where
  tokens : tokensRaised d.toRadixTree c.toRadixTree k.node = k.tokens
  swaRefCount : ∀ m < c.next, (c.node m).swaRefCount =
    (d.node m).swaRefCount + if k.InWindow c.toRadixTree m then 1 else 0
  refCount : ∀ m < c.next, (c.node m).refCount =
    (d.node m).refCount + if m ∈ c.rootPath k.node then 1 else 0

/-- What the counts say while `locks` are outstanding. -/
structure Counts (c : SWARadixCache) (locks : List SwaLock) : Prop where
  swaRefCount : ∀ m < c.next,
    (c.node m).swaRefCount = locks.countP fun k => k.InWindow c.toRadixTree m
  tombstone : ∀ m, (c.node m).swaTombstone = true → (c.node m).swaRefCount = 0
  le : ∀ m < c.next, (c.node m).swaRefCount ≤ (c.node m).refCount
  swaEvictable : c.swaEvictable = c.total fun x =>
    if x.swaTombstone = false ∧ x.swaRefCount = 0 then (x.length : ℤ) else 0
  swaProtected : c.swaProtected = c.total fun x =>
    if x.swaTombstone = false ∧ x.swaRefCount ≠ 0 then (x.length : ℤ) else 0
  unlock : ∀ k ∈ locks,
    ∃ d, c.decLock k.node k.uuid false = some d ∧ Released c d k
  unlocked : locks = [] → ∀ m < c.next,
    (c.node m).swaRefCount = 0 ∧ (c.node m).refCount = if m = root then 1 else 0

/-- The invariant of the runs. -/
structure Inv (s : SwaLockState) : Prop where
  ok : s.cache.Ok
  booked : Booked s.locks s.cache

variable {s s' : SwaLockState} {c : SWARadixCache} {locks : List SwaLock} {k : SwaLock}
  {t : RadixTree} {m : NodeId}

theorem inv_init {ps window : Nat} (hps : 0 < ps) (hwindow : 0 < window) :
    Inv (init ps window) :=
  ⟨ok_empty hps hwindow, gauged_empty ps window, .empty ps window,
    fun _ hk => absurd hk List.not_mem_nil⟩

theorem Inv.step {a : SwaLockCall} (h : s.Inv) (hok : s.CallerOk a) (hst : s.step a = some s') :
    s'.Inv := by
  have hkeep := booked_insertKeeps s.locks
  have hevict := booked_evictKeeps s.locks
  cases a with
  | matchPrefix inputIds =>
    cases hst
    exact ⟨matchPrefix_ok h.ok inputIds,
      matchPrefix_keeps hkeep.toMatchKeeps h.ok h.booked inputIds⟩
  | insert inputIds kvIndices ev upd =>
    obtain ⟨r, hins, rfl⟩ := Option.map_eq_some_iff.mp hst
    obtain ⟨hok', hbooked⟩ := insert_keeps hkeep h.ok h.booked hok hins
    exact ⟨hok', hbooked⟩
  | lock node =>
    cases hst
    refine ⟨incLock_ok h.ok node, h.booked.gauged.incLock h.ok hok, h.booked.refs.incLock h.ok hok,
      fun k hk => ?_⟩
    obtain ⟨win, hc, -⟩ := incLock_counts h.ok.window_pos node
    refine (hc.sameShape.collectKv_eq k.node).trans ?_
    rcases List.mem_cons.mp hk with rfl | hk
    · rfl
    · exact h.booked.indices k hk
  | unlock i =>
    rw [SwaLockState.step] at hst
    split at hst
    · cases hst
    rename_i k hk
    obtain ⟨d, hdec, rfl⟩ := Option.map_eq_some_iff.mp hst
    obtain ⟨hi, hki⟩ := List.getElem?_eq_some_iff.mp hk
    -- the order of the locks does not matter, so `k` comes first
    have hperm : (k :: s.locks.eraseIdx i).Perm s.locks := by
      rw [← hki]
      exact List.getElem_cons_eraseIdx_perm hi
    have hrefs := h.booked.refs.perm hperm
    obtain ⟨d', hdec', hrefs', hc⟩ := hrefs.decLock h.ok
    rw [hdec, Option.some.injEq] at hdec'
    subst hdec'
    refine ⟨decLock_ok h.ok hdec,
      h.booked.gauged.decLock h.ok (hrefs.inTree k List.mem_cons_self) hdec, hrefs',
      fun k' hk' => ?_⟩
    rw [← h.booked.indices k' (List.mem_of_mem_eraseIdx hk')]
    exact (hc.sameShape.collectKv_eq k'.node).symm
  | evictFull numTokens ties =>
    cases hst
    obtain ⟨hok', k, hbooked⟩ := evictFull_keeps hevict h.ok numTokens ties h.booked
    exact ⟨hok', hbooked⟩
  | evictSwa numTokens ties =>
    cases hst
    obtain ⟨hok', k, hbooked⟩ := evictSwa_keeps hevict h.ok numTokens ties h.booked
    exact ⟨hok', hbooked⟩
  | trimHeadSwa inputIds keepFrom =>
    cases hst
    obtain ⟨hok', hbooked⟩ := trimHeadSwa_keeps hkeep.toMatchKeeps hevict (fun _ hd => hd) h.ok
      h.booked inputIds keepFrom
    exact ⟨hok', hbooked⟩

-- ---------------------------------------------------------------------------
-- The recorded tokens
-- ---------------------------------------------------------------------------

/-- The part of a path's marks that is a node's. -/
theorem marks_at (h : t.Wf) (f : NodeId → Bool) {n : NodeId} (hm : m ∈ t.rootPath n) {i : Nat}
    (hi : i < (t.node m).length) :
    ((t.rootPath n).reverse.flatMap fun a => List.replicate (t.node a).length (f a))[
      t.pathLen m - (t.node m).length + i]? = some (f m) := by
  obtain ⟨p, hp⟩ := Option.ne_none_iff_exists'.mp ((h.upPath n).parent_ne_none_of_mem hm)
  obtain ⟨l, hl, below, hbelow⟩ := (h.upPath n).of_mem hm
  rw [(h.upPath m).unique hl |>.symm, h.rootPath_cons hp] at hbelow
  have hlen : ((t.rootPath p).reverse.flatMap fun a =>
      List.replicate (t.node a).length (f a)).length = t.pathLen m - (t.node m).length := by
    rw [pathLen, h.rootPath_cons hp, List.map_cons, List.sum_cons, Nat.add_sub_cancel_left,
      List.length_flatMap, List.map_reverse, List.sum_reverse]
    simp only [List.length_replicate]
  rw [← hbelow, List.reverse_append, List.reverse_cons, List.append_assoc, List.flatMap_append,
    ← hlen, List.getElem?_append_right (Nat.le_add_right _ _), Nat.add_sub_cancel_left,
    List.singleton_append, List.flatMap_cons, List.getElem?_append_left (by simpa using hi),
    List.getElem?_replicate, if_pos hi]

theorem inWindow_iff (h : SwaRefs c locks) (hw : c.Wf) (hk : k ∈ locks) :
    k.InWindow c.toRadixTree m ↔ k.covers c.toRadixTree m = true := by
  rw [SwaLock.InWindow, h.tokens k hk, SwaLock.marks]
  constructor
  · rintro ⟨hm, hall⟩
    have hl := hw.linked_of_mem_rootPath (h.inTree k hk) m hm
    have hpos := (hw.key_pages m hl).1
    have hfirst := hall 0 hpos
    rw [marks_at hw (k.covers c.toRadixTree) hm hpos] at hfirst
    exact Option.some.inj hfirst
  · intro hcov
    have hm := SwaLock.mem_of_covers hcov
    refine ⟨hm, fun i hi => ?_⟩
    rw [marks_at hw (k.covers c.toRadixTree) hm hi, hcov]

-- ---------------------------------------------------------------------------
-- Every run
-- ---------------------------------------------------------------------------

theorem Inv.released (h : s.Inv) (hk : k ∈ s.locks) :
    ∃ d, s.cache.decLock k.node k.uuid false = some d ∧ Released s.cache d k := by
  have hw := h.ok.toWf
  have hperm : (k :: s.locks.erase k).Perm s.locks := (List.perm_cons_erase hk).symm
  obtain ⟨d, hdec, -, hc⟩ := (h.booked.refs.perm hperm).decLock h.ok
  refine ⟨d, hdec, ?_, fun m _ => ?_, fun m _ => ?_⟩
  · rw [tokensRaised_eq fun m => (hc.node m).swaRefCount, h.booked.refs.tokens k hk,
      SwaLock.marks, hc.sameShape.rootPath_eq]
    simp only [Node.length, hc.sameShape.key]
  · rw [(hc.node m).swaRefCount]
    congr 1
    exact if_congr (inWindow_iff h.booked.refs hw hk).symm rfl rfl
  · rw [(hc.node m).refCount, RefInv.count_rootPath hw]

theorem Inv.counts (h : s.Inv) : Counts s.cache s.locks where
  swaRefCount := fun m hm => by
    rw [h.booked.refs.swaRefs m hm]
    refine List.countP_congr fun k hk => ?_
    rw [decide_eq_true_iff, inWindow_iff h.booked.refs h.ok.toWf hk]
  tombstone := h.ok.unlocked
  le := fun m hm => h.booked.refs.swaRefCount_le h.ok.toWf hm
  swaEvictable := (congrArg Prod.fst h.booked.gauged.total_swa).trans
    ((map_total (AddMonoidHom.fst ℤ ℤ) _ _).trans
      (congrArg s.cache.total (funext fun x => congrArg Prod.fst x.swaSizes_eq)))
  swaProtected := (congrArg Prod.snd h.booked.gauged.total_swa).trans
    ((map_total (AddMonoidHom.snd ℤ ℤ) _ _).trans
      (congrArg s.cache.total (funext fun x => congrArg Prod.snd x.swaSizes_eq)))
  unlock := fun k hk => h.released hk
  unlocked := by
    intro hnone m hm
    have hrefs := h.booked.refs
    rw [hnone] at hrefs
    refine ⟨hrefs.swaRefs m hm, ?_⟩
    split
    · rename_i hr
      rw [hr]
      exact hrefs.root
    · rename_i hr
      exact hrefs.refs.refs m hm hr

theorem swa_locks_symmetric {ps window : Nat} (hps : 0 < ps) (hwindow : 0 < window)
    (hs : Reach step CallerOk (init ps window) s) : Counts s.cache s.locks :=
  (hs.invariant (inv_init hps hwindow) fun _ _ _ h hok hst => h.step hok hst : s.Inv).counts

/-- A window of two: the second lock shares the boundary of the first, which a match has
split since; the third stops at a new boundary below it. The first is ended. -/
theorem shared_boundary_counts :
    ∃ s, guardedRun step CallerOk (init 1 2)
        [.insert [1, 2, 3, 4] [10, 11, 12, 13] 0 0, .lock 1, .matchPrefix [1, 2, 3], .lock 2,
          .insert [1, 2, 3, 4, 5] [10, 11, 12, 13, 14] 0 4, .lock 3, .evictSwa 9 (fun _ => 0),
          .unlock 2] = some s ∧
      (s.locks.map fun k => (k.node, k.uuid)) = [(3, some 2), (2, some 1)] ∧
      Counts s.cache s.locks := by
  have hrun : (guardedRun step CallerOk (init 1 2)
      [.insert [1, 2, 3, 4] [10, 11, 12, 13] 0 0, .lock 1, .matchPrefix [1, 2, 3], .lock 2,
        .insert [1, 2, 3, 4, 5] [10, 11, 12, 13, 14] 0 4, .lock 3, .evictSwa 9 (fun _ => 0),
        .unlock 2]).map (fun s => s.locks.map fun k => (k.node, k.uuid)) =
      some [(3, some 2), (2, some 1)] := by
    decide +kernel
  obtain ⟨s, hs, hlocks⟩ := Option.map_eq_some_iff.mp hrun
  exact ⟨s, hs, hlocks, swa_locks_symmetric Nat.one_pos Nat.two_pos (reach_of_guardedRun _ hs)⟩

end SwaLockState

end FreeToken.KvCache
