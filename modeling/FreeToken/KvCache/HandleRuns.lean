import FreeToken.KvCache.GaugeRuns
import FreeToken.KvCache.PrefixCacheRuns
import FreeToken.KvCache.SwaLockRuns
import FreeToken.KvCache.WindowedReuse

/-!
# Locked handles

Runs of the three radix caches, with the pages each outstanding lock was taken on. A
node keeps its object while matches split it, the new nodes go above it, and no insert
writes the pages of a node that is locked: the pages from the root to a locked node are
those it was locked with. The counters of a cache are a function of its tree and the
outstanding locks, so a lock that ends leaves those of the others.

In the hybrid cache a lock taken while its node had no snapshot gives back a snapshot
reference that is another's, when its node has got one meanwhile (`LockState.StepOk`).

## Results

* `Extends` — what no call changes of the nodes that exist;
* `locked_handles_stay` — the three caches, in every state of their runs;
* `unlock_takes_reference` — a run with a mismatched unlock.
-/

namespace FreeToken.KvCache

open FreeToken.Lib RadixTree

-- ---------------------------------------------------------------------------
-- What the nodes stand for
-- ---------------------------------------------------------------------------

/-- The pages from the root to `n` are these, one a token. -/
structure Intact (t : RadixTree) (n : NodeId) (indices : List KvIndex) : Prop where
  inTree : t.InTree n
  collectKv : t.collectKv n = indices
  pathLen : t.pathLen n = indices.length

theorem intact_of_eq {t : RadixTree} (h : t.Wf) {n : NodeId} {indices : List KvIndex}
    (hn : t.InTree n) (hkv : t.collectKv n = indices) : Intact t n indices :=
  ⟨hn, hkv, by rw [pathLen_eq_length, ← hkv, length_collectKv h hn]⟩

/-- The node objects of `t` stand in `t'` for the tokens and pages they stood for. -/
structure Extends (t t' : RadixTree) : Prop where
  next : t.next ≤ t'.next
  pathTokens : ∀ n < t.next, t'.pathTokens n = t.pathTokens n
  collectKv : ∀ n < t.next, t'.collectKv n = t.collectKv n

namespace Extends

variable {t t' t'' : RadixTree} {n : NodeId}

theorem refl (t : RadixTree) : Extends t t := ⟨Nat.le_refl _, fun _ _ => rfl, fun _ _ => rfl⟩

theorem trans (h : Extends t t') (h' : Extends t' t'') : Extends t t'' where
  next := h.next.trans h'.next
  pathTokens := fun n hn => (h'.pathTokens n (hn.trans_le h.next)).trans (h.pathTokens n hn)
  collectKv := fun n hn => (h'.collectKv n (hn.trans_le h.next)).trans (h.collectKv n hn)

theorem of_sameShape (hs : SameShape t t') : Extends t t' :=
  ⟨Nat.le_of_eq hs.next.symm, fun n _ => hs.pathTokens_eq n, fun n _ => hs.collectKv_eq n⟩

theorem splitAt (h : t.Wf) {pos : Nat} (hok : t.SplitOk n pos) : Extends t (t.splitAt n pos).1 :=
  ⟨Nat.le_succ _, fun _ ha => concat_splitAt h hok cuts_key (Nat.ne_of_lt ha),
    fun _ ha => concat_splitAt h hok cuts_value (Nat.ne_of_lt ha)⟩

theorem addLeaf (h : t.Wf) {key : List Token} {value : List KvIndex} {now : Time}
    (hok : t.LeafOk n key value) : Extends t (t.addLeaf n key value now).1 :=
  ⟨Nat.le_succ _, fun _ ha => concat_addLeaf h hok Node.key (Nat.ne_of_lt ha),
    fun _ ha => concat_addLeaf h hok Node.value (Nat.ne_of_lt ha)⟩

theorem unlink (t : RadixTree) (n : NodeId) : Extends t (t.unlink n) :=
  ⟨Nat.le_refl _, fun a _ => concat_unlink (f := Node.key) (fun _ => rfl) n a,
    fun a _ => concat_unlink (f := Node.value) (fun _ => rfl) n a⟩

theorem insertKeeps (t : RadixTree) (kvIndices : List KvIndex) (slot : Slot) :
    InsertKeeps kvIndices slot (Extends t) where
  annotate := fun u n _ _ hf h => h.trans (.of_sameShape (.annotate hf u n))
  split := fun _ _ _ hw hok h => h.trans (.splitAt hw hok)
  leaf := fun _ _ _ _ _ hw hok _ h => h.trans (.addLeaf hw hok)
  attach := fun u n kind sums _ _ _ _ h => h.trans (.of_sameShape (.attach u n slot kind sums))

theorem evictionKeeps (t : RadixTree) :
    HybridRadixCache.EvictionKeeps fun e => Extends t e.cache.toRadixTree where
  drop := fun e n _ _ _ _ h => by
    rw [HybridRadixCache.dropLeaf_tree]
    exact h.trans ((of_sameShape (HybridRadixCache.freeNodeMamba_sameShape e.cache n e.mambaSlots)).trans
      (.unlink _ n))
  free := fun e n _ _ _ _ h =>
    h.trans (.of_sameShape (HybridRadixCache.freeNodeMamba_sameShape e.cache n e.mambaSlots))
  freed := fun _ _ h => h

end Extends

-- ---------------------------------------------------------------------------
-- The prefix cache
-- ---------------------------------------------------------------------------

namespace PrefixState

open RadixPrefixCache

/-- The counters are those of locks on `held`. -/
structure CountsOf (c : RadixPrefixCache) (held : List NodeId) : Prop where
  refCount : ∀ n < c.next, n ≠ root →
    (c.node n).refCount = held.countP fun k => n ∈ c.rootPath k
  evictableSize : c.evictableSize = c.total fun x => if x.refCount = 0 then (x.length : ℤ) else 0
  protectedSize : c.protectedSize = c.total fun x => if x.refCount = 0 then 0 else (x.length : ℤ)

structure HandlesStay (s : PrefixState) : Prop where
  intact : ∀ k ∈ s.locks, Intact s.cache.toRadixTree k.handle.node k.indices ∧
    k.indices.length = k.handle.cachedLen
  counts : CountsOf s.cache s.held
  unlock : ∀ i k, s.locks[i]? = some k → ∃ c, s.cache.lockHandle k.handle true = some c ∧
    SameShape s.cache.toRadixTree c.toRadixTree ∧ CountsOf c (s.held.eraseIdx i)

/-- What a run keeps of the handles. -/
structure HandleInv (s : PrefixState) : Prop where
  inv : PrefixInv s.cache s.held
  handles : ∀ handle ∈ s.handles, handle.node < s.cache.next ∧
    (s.cache.pathTokens handle.node).length = handle.cachedLen
  locks : ∀ k ∈ s.locks, k.handle ∈ s.handles ∧ s.cache.collectKv k.handle.node = k.indices

variable {s s' : PrefixState} {c : RadixPrefixCache} {held : List NodeId}

theorem countsOf (h : PrefixInv c held) : CountsOf c held :=
  ⟨h.refs.refs, h.sized.evictable, h.sized.protected⟩

theorem held_eraseIdx (s : PrefixState) (i : Nat) :
    (s.locks.eraseIdx i).map (fun k => k.handle.node) = s.held.eraseIdx i :=
  (List.eraseIdx_map _ _ _).symm

theorem perm_held {i : Nat} {k : PrefixLock} (hk : s.locks[i]? = some k) :
    (k.handle.node :: s.held.eraseIdx i).Perm s.held := by
  obtain ⟨hi, rfl⟩ := List.getElem?_eq_some_iff.mp hk
  rw [← held_eraseIdx]
  exact (List.getElem_cons_eraseIdx_perm hi).map fun k => k.handle.node

theorem handleInv_init {ps : Nat} (hps : 0 < ps) : (init ps).HandleInv :=
  ⟨prefixInv_empty hps, fun _ hh => absurd hh List.not_mem_nil, fun _ hk => absurd hk List.not_mem_nil⟩

/-- The cache moved on, and the handles were not touched. -/
theorem HandleInv.extend (h : s.HandleInv) (hinv : PrefixInv c s.held)
    (he : Extends s.cache.toRadixTree c.toRadixTree) : ({ s with cache := c } : PrefixState).HandleInv where
  inv := hinv
  handles := fun handle hh => by
    obtain ⟨hlt, hlen⟩ := h.handles handle hh
    exact ⟨hlt.trans_le he.next, (congrArg List.length (he.pathTokens _ hlt)).trans hlen⟩
  locks := fun k hk => by
    obtain ⟨hh, hkv⟩ := h.locks k hk
    exact ⟨hh, (he.collectKv _ (h.handles _ hh).1).trans hkv⟩

/-- A handle was handed out. -/
theorem HandleInv.hand (h : s.HandleInv) {handle : RadixCacheHandle} {toks : List Token}
    (hs : Stands s.cache handle toks) :
    ({ s with handles := s.handles ++ [handle] } : PrefixState).HandleInv where
  inv := h.inv
  handles := fun handle' hh => by
    rcases List.mem_append.mp hh with hh | hh
    · exact h.handles handle' hh
    · rw [List.mem_singleton.mp hh, hs.pathTokens, hs.cachedLen]
      exact ⟨h.inv.wf.inTree_lt hs.inTree, rfl⟩
  locks := fun k hk => (h.locks k hk).imp_left (List.mem_append_left _)

theorem extends_insertPrefix {c' : RadixPrefixCache} {r : Nat × RadixCacheHandle}
    {ids : List Token} {indices : List KvIndex} {tic now : Time} (h : c.Wf)
    (hins : c.insertPrefix ids indices tic now = some (c', r)) :
    Extends c.toRadixTree c'.toRadixTree := by
  simp only [insertPrefix] at hins
  have hdvd := dvd_alignDown ids.length c.pageSize
  have hlen : (ids.take (alignDown ids.length c.pageSize)).length =
      alignDown ids.length c.pageSize := List.length_take_of_le (alignDown_le _ _)
  generalize ids.take (alignDown ids.length c.pageSize) = whole at hins hlen
  have hwalk : Extends c.toRadixTree (c.walk whole tic).1 :=
    (Extends.insertKeeps c.toRadixTree [] 0).toWalkKeeps.walk h (.refl _) whole tic
  split at hins
  · cases hins
    exact hwalk
  rename_i hshort
  split at hins
  · cases hins
  rename_i hvalue
  rw [not_not] at hvalue
  cases hins
  exact hwalk.trans (.addLeaf (walk_wf whole tic h)
    (HybridRadixCache.leafOk_of_walk h (hlen.symm ▸ hdvd) (by rwa [hlen]) hvalue))

theorem HandleInv.step {a : PrefixCall} {r : PrefixAnswer} {m : PrefixMap} (h : s.HandleInv)
    (href : s.cache.Refines m) (hok : s.CallerOk a) (hcall : s.call a = some (s', r)) :
    s'.HandleInv := by
  cases a with
  | matchPrefix inputIds tic =>
    cases hcall
    have hwalk := (Extends.insertKeeps s.cache.toRadixTree [] 0).toWalkKeeps.walk h.inv.wf
      (.refl _) inputIds tic
    have hmoved := h.extend (h.inv.walk inputIds tic) hwalk
    exact hmoved.hand (matchPrefix_stands h.inv.wf inputIds tic)
  | insertPrefix inputIds indices tic now =>
    obtain ⟨⟨c, len, handle⟩, hins, hs'⟩ := Option.map_eq_some_iff.mp hcall
    cases hs'
    obtain ⟨hinv, -, -, -, hstands⟩ := insertPrefix_spec h.inv href hins
    exact (h.extend hinv (extends_insertPrefix h.inv.wf hins)).hand hstands
  | lock i =>
    obtain ⟨handle, hi, hcall⟩ := Option.bind_eq_some_iff.mp hcall
    obtain ⟨c, hlock, hs'⟩ := Option.map_eq_some_iff.mp hcall
    cases hs'
    -- counts move, and what a handle stands for does not
    have hshape := (counted_lock hlock).toSameShape
    refine ⟨h.inv.lock (hok handle hi) hlock, fun handle' hh => ?_, fun k hk => ?_⟩
    · rw [hshape.next, hshape.pathTokens_eq]
      exact h.handles handle' hh
    · rw [hshape.collectKv_eq]
      rcases List.mem_cons.mp hk with rfl | hk
      · exact ⟨List.mem_of_getElem? hi, rfl⟩
      · exact h.locks k hk
  | unlock i =>
    obtain ⟨k, hk, hcall⟩ := Option.bind_eq_some_iff.mp hcall
    obtain ⟨c, hun, hs'⟩ := Option.map_eq_some_iff.mp hcall
    cases hs'
    have hshape := (counted_unlock hun).toSameShape
    refine ⟨?_, fun handle' hh => ?_, fun k' hk' => ?_⟩
    · rw [held, held_eraseIdx]
      exact (h.inv.perm (perm_held hk)).unlock hun
    · rw [← hshape.next, ← hshape.pathTokens_eq]
      exact h.handles handle' hh
    · rw [← hshape.collectKv_eq]
      exact h.locks k' (List.mem_of_mem_eraseIdx hk')
  | evict size ties =>
    obtain ⟨e, he, -, hinv, hext⟩ := evict_spec
      (P := fun e => Extends s.cache.toRadixTree e.cache.toRadixTree)
      (fun e n _ _ _ _ hp => hp.trans (.unlink _ n)) ties h.inv hok (.refl _)
    rw [call, he] at hcall
    cases hcall
    exact h.extend hinv hext

theorem HandleInv.stay (h : s.HandleInv) : s.HandlesStay where
  intact := fun k hk => by
    obtain ⟨hh, hkv⟩ := h.locks k hk
    have hin := h.inv.inTree _ (List.mem_map_of_mem hk)
    refine ⟨intact_of_eq h.inv.wf hin hkv, ?_⟩
    rw [← hkv, length_collectKv h.inv.wf hin]
    exact (h.handles _ hh).2
  counts := countsOf h.inv
  unlock := fun i k hk => by
    have hperm := h.inv.perm (perm_held hk)
    obtain ⟨c, hc⟩ := Option.isSome_iff_exists.mp
      (unlock_isSome hperm.refs h.inv.wf List.mem_cons_self)
    exact ⟨c, hc, (counted_unlock hc).toSameShape.symm, countsOf (hperm.unlock hc)⟩

end PrefixState

-- ---------------------------------------------------------------------------
-- The hybrid cache
-- ---------------------------------------------------------------------------

/-- A run of the hybrid cache, with the pages each outstanding lock was taken on. -/
structure HandleState extends LockState where
  indices : List (List KvIndex)

namespace HandleState

open HybridRadixCache

def init (pageSize : Nat) : HandleState := ⟨.init pageSize, []⟩

/-- The pages of the outstanding locks after a call. -/
def locked (s : HandleState) : CacheOp → List (List KvIndex)
  | .incLock node => s.cache.collectKv node :: s.indices
  | .decLock i => s.indices.eraseIdx i
  | _ => s.indices

def step (s : HandleState) (a : CacheOp) : Option HandleState :=
  (s.toLockState.step a).map fun t => ⟨t, s.locked a⟩

/-- A lock is taken on a node of the tree, and no unlock is mismatched. -/
def CallerOk (s : HandleState) (a : CacheOp) : Prop :=
  s.toLockState.LockInTree a ∧ s.toLockState.StepOk a

instance (s : HandleState) (a : CacheOp) : Decidable (s.CallerOk a) :=
  match a with
  | .incLock n => inferInstanceAs
    (Decidable ((n = root ∨ (s.cache.node n).linked = true) ∧ s.toLockState.StepOk (.incLock n)))
  | .matchPrefix .. | .insert .. | .decLock _ | .evictFull .. | .evictMamba _ =>
    inferInstanceAs (Decidable (True ∧ s.toLockState.StepOk _))

/-- The counters are those of the locks. -/
structure CountsOf (c : HybridRadixCache) (locks : List Lock) : Prop where
  refCount : ∀ n < c.next, n ≠ root →
    (c.node n).refCount = locks.countP fun k => n ∈ c.rootPath k.1
  mambaRefCount : ∀ n, (c.node n).mambaRefCount = locks.countP fun k => k.1 = n ∧ k.2.isSome
  gauge : ∀ g, c.gauge g = c.total fun x => x.gauge g

structure HandlesStay (s : HandleState) : Prop where
  matched : ∀ inputIds pooled tic, let r := s.cache.matchPrefix inputIds pooled tic
    Intact r.1.toRadixTree r.2.node r.2.kvIndices ∧ r.2.kvIndices.length = r.2.cachedLen
  intact : ∀ (i : Nat) (k : Lock), s.locks[i]? = some k → ∃ indices, s.indices[i]? = some indices ∧
    Intact s.cache.toRadixTree k.1 indices
  counts : CountsOf s.cache s.locks
  unlock : ∀ (i : Nat) (k : Lock), s.locks[i]? = some k → s.toLockState.StepOk (.decLock i) →
    ∃ c, s.cache.decLock k.1 = some c ∧ SameShape s.cache.toRadixTree c.toRadixTree ∧
      (∀ n, (c.node n).mambaValue = (s.cache.node n).mambaValue) ∧
      CountsOf c (s.locks.eraseIdx i)

/-- The invariant of the runs. -/
structure HandleInv (s : HandleState) : Prop where
  inv : s.toLockState.Inv
  held : s.toLockState.HeldInv
  indices : s.indices = s.locks.map fun k : Lock => s.cache.collectKv k.1

variable {s s' : HandleState} {c : HybridRadixCache} {locks : List Lock}

theorem countsOf (h : LockInv c.toRadixTree locks) (hg : c.Gauged) : CountsOf c locks :=
  ⟨h.refs, h.mambaRefs, hg.total⟩

theorem handleInv_init {ps : Nat} (hps : 0 < ps) : (init ps).HandleInv :=
  ⟨LockState.inv_init hps, LockState.heldInv_init hps, rfl⟩

/-- No call changes what the nodes stand for. -/
theorem extends_step {s s' : LockState} {a : CacheOp} (hw : s.cache.Wf)
    (hst : s.step a = some s') : Extends s.cache.toRadixTree s'.cache.toRadixTree := by
  cases a with
  | matchPrefix inputIds pooled tic =>
    cases hst
    exact (Extends.insertKeeps s.cache.toRadixTree [] 0).toWalkKeeps.walk hw (.refl _) inputIds tic
  | insert inputIds kvIndices slot sums kind tic now =>
    rw [LockState.step] at hst
    split at hst
    · cases hst
    rename_i ho
    obtain ⟨⟨c, r⟩, hins, hs'⟩ := Option.map_eq_some_iff.mp hst
    cases hs'
    exact (HybridRadixCache.insert_induct (Extends.insertKeeps _ kvIndices slot) hw
      (HybridRadixCache.slotFree_of_owns hw ho) hins (.refl _)).1
  | incLock n =>
    rw [LockState.step] at hst
    split at hst
    · cases hst
      exact .of_sameShape (LockInv.counted_incLock s.cache n).toSameShape
    · cases hst
  | decLock i =>
    obtain ⟨k, -, hst⟩ := Option.bind_eq_some_iff.mp hst
    obtain ⟨c, hdec, hs'⟩ := Option.map_eq_some_iff.mp hst
    cases hs'
    exact .of_sameShape (LockInv.counted_decLock hdec).toSameShape.symm
  | evictFull numTokens ties =>
    cases hst
    exact (HybridRadixCache.evictFull_induct (Extends.evictionKeeps _) numTokens ties hw
      (.refl _)).1
  | evictMamba num =>
    cases hst
    exact (HybridRadixCache.evictMamba_induct (Extends.evictionKeeps _) num hw (.refl _)).1

/-- What a call does to the outstanding locks. -/
theorem locks_step {s s' : LockState} {a : CacheOp} (hst : s.step a = some s') :
    (∃ n < s.cache.next, a = .incLock n ∧ s'.locks = (n, (s.cache.node n).mambaValue) :: s.locks) ∨
      (∃ i, a = .decLock i ∧ s'.locks = s.locks.eraseIdx i) ∨
      (s'.locks = s.locks ∧ ∀ indices, (⟨s, indices⟩ : HandleState).locked a = indices) := by
  cases a with
  | incLock n =>
    rw [LockState.step] at hst
    split at hst
    · rename_i hn
      cases hst
      exact .inl ⟨n, hn, rfl, rfl⟩
    · cases hst
  | decLock i =>
    obtain ⟨k, -, hst⟩ := Option.bind_eq_some_iff.mp hst
    obtain ⟨c, -, hs'⟩ := Option.map_eq_some_iff.mp hst
    cases hs'
    exact .inr (.inl ⟨i, rfl, rfl⟩)
  | insert inputIds kvIndices slot sums kind tic now =>
    rw [LockState.step] at hst
    split at hst
    · cases hst
    obtain ⟨r, -, hs'⟩ := Option.map_eq_some_iff.mp hst
    cases hs'
    exact .inr (.inr ⟨rfl, fun _ => rfl⟩)
  | matchPrefix | evictFull | evictMamba =>
    cases hst
    exact .inr (.inr ⟨rfl, fun _ => rfl⟩)

theorem HandleInv.step {a : CacheOp} (h : s.HandleInv) (hok : s.CallerOk a)
    (hst : s.step a = some s') : s'.HandleInv := by
  obtain ⟨t, hlock, rfl⟩ := Option.map_eq_some_iff.mp hst
  have hext := extends_step h.inv.wf hlock
  refine ⟨h.inv.step hok.2 hlock, h.held.step hok.1 hlock, ?_⟩
  have hold : s.indices = s.locks.map fun k : Lock => t.cache.collectKv k.1 :=
    h.indices.trans (List.map_congr_left fun k hk =>
      (hext.collectKv k.1 (h.inv.locks.lt k hk)).symm)
  show s.locked a = t.locks.map fun k : Lock => t.cache.collectKv k.1
  rcases locks_step hlock with ⟨n, hn, rfl, hlocks⟩ | ⟨i, rfl, hlocks⟩ | ⟨hlocks, hsame⟩
  · rw [locked, hlocks, List.map_cons, ← hold, hext.collectKv n hn]
  · rw [locked, hlocks, ← List.eraseIdx_map, ← hold]
  · rw [hlocks, ← hold]
    exact hsame s.indices

/-- The match that is returned is the one of its node. -/
theorem matchUp_node (hw : c.Wf) (pooled : Bool) (n : NodeId) (seen : Option Nat) :
    let r := c.matchUp pooled (c.rootPath n) (c.pathLen n) seen
    (r.node = root ∨ r.node ∈ c.rootPath n) ∧ r.kvIndices = c.collectKv r.node ∧
      r.cachedLen = c.pathLen r.node := by
  have hup := hw.upPath n
  generalize hpath : c.rootPath n = path at hup
  induction hup generalizing seen with
  | root _ =>
    refine ⟨.inl rfl, (concat_root hw Node.value).symm, ?_⟩
    show 0 = c.pathLen root
    rw [pathLen_eq_length, pathTokens_root hw]
    rfl
  | @cons a p l ha _ ih =>
    have hpar := hw.rootPath_cons ha
    rw [hpath, List.cons.injEq] at hpar
    have hlen : c.pathLen a - (c.node a).length = c.pathLen p := by
      rw [pathLen_eq_length, pathLen_eq_length, pathTokens_child hw ha, List.length_append,
        Node.length, Nat.add_sub_cancel]
    have habove := fun seen => (ih seen hpar.2.symm).imp_left (Or.imp_right (List.mem_cons_of_mem a))
    rw [matchUp]
    cases (c.node a).mambaValue with
    | none =>
      dsimp only
      rw [hlen]
      exact habove seen
    | some slot =>
      dsimp only
      split
      · exact ⟨.inr List.mem_cons_self, rfl, rfl⟩
      · rw [hlen]
        exact habove _

theorem HandleInv.stay (h : s.HandleInv) : s.HandlesStay where
  matched := fun inputIds pooled tic => by
    have hwalk := walk_wf inputIds tic h.inv.wf
    have hin := (walk_end inputIds tic h.inv.wf).inTree
    obtain ⟨hnode, hkv, hlen⟩ := matchUp_node (c := (s.cache.walk inputIds tic).1) hwalk pooled
      (s.cache.walk inputIds tic).2.1 none
    have hintact := intact_of_eq hwalk (hnode.elim .inl (inTree_of_mem_rootPath hwalk hin))
      hkv.symm
    exact ⟨hintact, hintact.pathLen.symm.trans hlen.symm⟩
  intact := fun i k hk => by
    have hin := h.held.held.inTree k.1 (List.mem_map_of_mem (List.mem_of_getElem? hk))
    refine ⟨s.cache.collectKv k.1, ?_, intact_of_eq h.inv.wf hin rfl⟩
    rw [h.indices, List.getElem?_map, hk]
    rfl
  counts := countsOf h.inv.locks h.held.gauged
  unlock := fun i k hk hok => by
    obtain ⟨c, hc⟩ := Option.isSome_iff_exists.mp
      (LockInv.decLock_isSome h.inv.locks h.inv.wf (List.mem_of_getElem? hk))
    have hcount := LockInv.counted_decLock hc
    have hstep : s.toLockState.step (.decLock i) = some ⟨c, s.locks.eraseIdx i, []⟩ := by
      rw [LockState.step, hk, Option.bind_some, hc]
      rfl
    exact ⟨c, hc, hcount.toSameShape.symm, fun n => (hcount.mambaValue n).symm,
      countsOf (h.inv.step hok hstep).locks
        (h.held.step (a := .decLock i) trivial hstep).gauged⟩

end HandleState

-- ---------------------------------------------------------------------------
-- The window cache
-- ---------------------------------------------------------------------------

namespace SwaLockState

open SWARadixCache

/-- The counters are those of the locks. -/
structure CountsOf (c : SWARadixCache) (locks : List SwaLock) : Prop where
  refCount : ∀ m < c.next, m ≠ root →
    (c.node m).refCount = locks.countP fun k => m ∈ c.rootPath k.node
  swaRefCount : ∀ m < c.next,
    (c.node m).swaRefCount = locks.countP fun k => k.InWindow c.toRadixTree m
  full : (c.fullEvictable, c.fullProtected) = c.total Node.sizes
  swa : (c.swaEvictable, c.swaProtected) = c.total Node.swaSizes

structure HandlesStay (s : SwaLockState) : Prop where
  matched : ∀ inputIds, let r := s.cache.matchPrefix inputIds
    Intact r.1.toRadixTree r.2.node r.2.kvIndices ∧ r.2.kvIndices.length = r.2.cachedLen
  intact : ∀ k ∈ s.locks, Intact s.cache.toRadixTree k.node k.indices
  counts : CountsOf s.cache s.locks
  unlock : ∀ i k, s.locks[i]? = some k → ∃ d, s.cache.decLock k.node k.uuid false = some d ∧
    SameShape s.cache.toRadixTree d.toRadixTree ∧
    (∀ n, (d.node n).swaTombstone = (s.cache.node n).swaTombstone) ∧
    CountsOf d (s.locks.eraseIdx i)

variable {s : SwaLockState} {c : SWARadixCache} {locks : List SwaLock}

theorem countsOf (hw : c.Wf) (h : SwaRefs c locks) (hg : c.Gauged) : CountsOf c locks where
  refCount := fun m hm hr => by
    rw [h.refs.refs m hm hr, List.countP_map]
    rfl
  swaRefCount := fun m hm => by
    rw [h.swaRefs m hm]
    refine List.countP_congr fun k hk => ?_
    rw [decide_eq_true_iff, inWindow_iff h hw hk]
  full := hg.total_full
  swa := hg.total_swa

theorem Inv.stay (h : s.Inv) : s.HandlesStay where
  matched := fun inputIds => by
    have hmatch := matchPrefix_windowed h.ok inputIds
    have hintact := intact_of_eq (matchPrefix_ok h.ok inputIds).toWf hmatch.inTree
      hmatch.pages.symm
    refine ⟨hintact, ?_⟩
    rw [← hmatch.cachedLen, ← pathLen_eq_length, hintact.pathLen]
  intact := fun k hk =>
    intact_of_eq h.ok.toWf (h.booked.refs.inTree k hk) (h.booked.indices k hk)
  counts := countsOf h.ok.toWf h.booked.refs h.booked.gauged
  unlock := fun i k hk => by
    obtain ⟨hi, hki⟩ := List.getElem?_eq_some_iff.mp hk
    have hperm : (k :: s.locks.eraseIdx i).Perm s.locks := by
      rw [← hki]
      exact List.getElem_cons_eraseIdx_perm hi
    have hrefs := h.booked.refs.perm hperm
    obtain ⟨d, hdec, hrefs', hc⟩ := hrefs.decLock h.ok
    exact ⟨d, hdec, hc.sameShape.symm, fun n => (hc.node n).swaTombstone.symm,
      countsOf (decLock_ok h.ok hdec).toWf hrefs'
        (h.booked.gauged.decLock h.ok (hrefs.inTree k List.mem_cons_self) hdec)⟩

end SwaLockState

-- ---------------------------------------------------------------------------
-- Every run
-- ---------------------------------------------------------------------------

theorem PrefixState.HandleInv.run {ps : Nat} (hps : 0 < ps) {s : PrefixState}
    {log : List (PrefixCall × PrefixAnswer)}
    (hs : Trace PrefixState.call PrefixState.CallerOk (.init ps) log s) : s.HandleInv := by
  have hinv : s.HandleInv ∧ ∃ m, s.cache.Refines m := hs.invariant
    (P := fun s : PrefixState => s.HandleInv ∧ ∃ m, s.cache.Refines m)
    ⟨PrefixState.handleInv_init hps, _, refines_empty ps⟩
    fun s a s' r h hok hcall => by
      obtain ⟨h, m, href⟩ := h
      obtain ⟨-, -, m', -, href'⟩ := PrefixState.call_answers h.inv rfl href hok hcall
      exact ⟨h.step href hok hcall, m', href'⟩
  exact hinv.1

theorem locked_handles_stay {ps window : Nat} (hps : 0 < ps) (hwindow : 0 < window)
    {log : List (PrefixCall × PrefixAnswer)} {a : PrefixState} {b : HandleState}
    {c : SwaLockState}
    (ha : Trace PrefixState.call PrefixState.CallerOk (.init ps) log a)
    (hb : Reach HandleState.step HandleState.CallerOk (.init ps) b)
    (hc : Reach SwaLockState.step SwaLockState.CallerOk (.init ps window) c) :
    a.HandlesStay ∧ b.HandlesStay ∧ c.HandlesStay := by
  have hb : b.HandleInv := hb.invariant (HandleState.handleInv_init hps) fun _ _ _ h hok hst =>
    h.step hok hst
  have hc : c.Inv := hc.invariant (SwaLockState.inv_init hps hwindow) fun _ _ _ h hok hst =>
    h.step hok hst
  exact ⟨(PrefixState.HandleInv.run hps ha).stay, hb.stay, hc.stay⟩

/-- A locked handle in each cache: its path split by a match, its end extended by an
insert and what is not locked evicted. -/
theorem split_handles_stay : ∃ log a b c,
    Trace PrefixState.call PrefixState.CallerOk (.init 2) log a ∧
      Reach HandleState.step HandleState.CallerOk (.init 2) b ∧
      Reach SwaLockState.step SwaLockState.CallerOk (.init 2 2) c ∧
      a.locks.map PrefixLock.indices = [[10, 11, 12, 13]] ∧
      b.indices = [[10, 11, 12, 13]] ∧
      c.locks.map SwaLock.indices = [[10, 11, 12, 13]] ∧
      a.HandlesStay ∧ b.HandlesStay ∧ c.HandlesStay := by
  have ha : (traceRun PrefixState.call PrefixState.CallerOk (.init 2) []
      [.insertPrefix [1, 2, 3, 4] [10, 11, 12, 13] 1 1, .lock 0, .matchPrefix [1, 2, 9] 2,
        .insertPrefix [1, 2, 5, 6] [20, 21, 22, 23] 3 3, .evict 2 fun _ => 0]).map
        (fun t => t.1.locks.map PrefixLock.indices) = some [[10, 11, 12, 13]] := by decide
  have hb : (guardedRun HandleState.step HandleState.CallerOk (.init 2)
      [.insert [1, 2, 3, 4] [10, 11, 12, 13] 7 none .chunk 1 1, .incLock 1,
        .matchPrefix [1, 2, 9] false 2, .insert [1, 2, 5, 6] [20, 21, 22, 23] 8 none .chunk 3 3,
        .evictMamba 2, .evictFull 9 id]).map HandleState.indices = some [[10, 11, 12, 13]] := by
    decide
  have hc : (guardedRun SwaLockState.step SwaLockState.CallerOk (.init 2 2)
      [.insert [1, 2, 3, 4] [10, 11, 12, 13] 0 0, .lock 1, .matchPrefix [1, 2, 9],
        .evictSwa 9 fun _ => 0, .insert [1, 2, 3, 4, 5, 6] [20, 21, 12, 13, 14, 15] 0 2,
        .evictFull 2 fun _ => 0]).map (fun s => s.locks.map SwaLock.indices) =
      some [[10, 11, 12, 13]] := by decide +kernel
  obtain ⟨⟨a, log⟩, ha, hla⟩ := Option.map_eq_some_iff.mp ha
  obtain ⟨b, hb, hlb⟩ := Option.map_eq_some_iff.mp hb
  obtain ⟨c, hc, hlc⟩ := Option.map_eq_some_iff.mp hc
  have ha := trace_of_traceRun ha
  have hb := reach_of_guardedRun _ hb
  have hc := reach_of_guardedRun _ hc
  exact ⟨log, a, b, c, ha, hb, hc, hla, hlb, hlc,
    locked_handles_stay Nat.two_pos Nat.two_pos ha hb hc⟩

/-- A lock from before the snapshot ends while the handle is locked and a third lock
comes after: with the handle locked and unlocked in between, the third lock's snapshot
has no reference; without, it has one. -/
theorem unlock_takes_reference : ∃ s t,
    run HandleState.step (.init 1)
        [.insert [1, 2] [10, 11] 7 none .chunk 1 1, .matchPrefix [1] false 2, .incLock 2,
          .insert [1] [10] 8 none .chunk 3 3, .matchPrefix [1] false 4, .incLock 2, .decLock 1,
          .matchPrefix [1] false 5, .incLock 2, .decLock 1] = some s ∧
      run HandleState.step (.init 1)
        [.insert [1, 2] [10, 11] 7 none .chunk 1 1, .matchPrefix [1] false 2, .incLock 2,
          .insert [1] [10] 8 none .chunk 3 3, .matchPrefix [1] false 4, .decLock 0,
          .matchPrefix [1] false 5, .incLock 2] = some t ∧
      s.locks = [(2, some 8)] ∧ t.locks = [(2, some 8)] ∧
      (s.cache.node 2).mambaRefCount = 0 ∧ (t.cache.node 2).mambaRefCount = 1 ∧
      ¬ s.HandlesStay := by
  have hs : (run HandleState.step (.init 1)
      [.insert [1, 2] [10, 11] 7 none .chunk 1 1, .matchPrefix [1] false 2, .incLock 2,
        .insert [1] [10] 8 none .chunk 3 3, .matchPrefix [1] false 4, .incLock 2, .decLock 1,
        .matchPrefix [1] false 5, .incLock 2, .decLock 1]).map
        (fun s => (s.locks, (s.cache.node 2).mambaRefCount)) = some ([(2, some 8)], 0) := by decide
  have ht : (run HandleState.step (.init 1)
      [.insert [1, 2] [10, 11] 7 none .chunk 1 1, .matchPrefix [1] false 2, .incLock 2,
        .insert [1] [10] 8 none .chunk 3 3, .matchPrefix [1] false 4, .decLock 0,
        .matchPrefix [1] false 5, .incLock 2]).map
        (fun s => (s.locks, (s.cache.node 2).mambaRefCount)) = some ([(2, some 8)], 1) := by decide
  obtain ⟨s, hs, hsv⟩ := Option.map_eq_some_iff.mp hs
  obtain ⟨t, ht, htv⟩ := Option.map_eq_some_iff.mp ht
  rw [Prod.mk.injEq] at hsv htv
  refine ⟨s, t, hs, ht, hsv.1, htv.1, hsv.2, htv.2, fun hstay => ?_⟩
  have hcount := hstay.counts.mambaRefCount 2
  rw [hsv.1, hsv.2] at hcount
  cases hcount

end FreeToken.KvCache
