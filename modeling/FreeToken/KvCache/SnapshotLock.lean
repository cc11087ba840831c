import FreeToken.KvCache.LockCounts
import FreeToken.Lib.Reach

/-!
# A locked snapshot stays

Runs of the hybrid cache: matches, inserts, locks, unlocks and evictions in any
order, where an unlock ends one outstanding lock on the same node. `inc_lock`
takes a snapshot reference only if the node has a snapshot then, and `dec_lock`
gives one back whenever the node has a referenced snapshot now. A lock taken
before a snapshot was attached therefore gives back a reference that another lock
took. As long as no such unlock happens, a snapshot that was live when it was
locked keeps its reference, is not evicted and still matches.

## Results

* `locked_snapshot_kept` — the guarantee, in every run without a mismatched unlock;
* `kv_lock_releases_snapshot` — a run with one, in which a locked snapshot is evicted.
-/

namespace FreeToken.KvCache

open FreeToken.Lib RadixTree

/-- The cache, its outstanding locks and the slots the last step returned. -/
structure LockState where
  cache : HybridRadixCache
  locks : List Lock
  returned : List Slot

inductive CacheOp
  | matchPrefix (inputIds : List Token) (pooled : Bool) (tic : Time)
  | insert (inputIds : List Token) (kvIndices : List KvIndex) (mambaValue : Slot)
      (pooledSums : Option Nat) (kind : SnapshotKind) (tic now : Time)
  | incLock (node : NodeId)
  /-- `dec_lock` of the node of the `i`-th outstanding lock. -/
  | decLock (i : Nat)
  | evictFull (numTokens : Nat) (ties : Nat → Nat)
  | evictMamba (num : Nat)

namespace LockState

def init (pageSize : Nat) : LockState := ⟨.empty pageSize, [], []⟩

def owns (s : LockState) (slot : Slot) : Bool :=
  (List.range s.cache.next).any fun n => (s.cache.node n).mambaValue == some slot

/-- One operation; `none` when it raises. A donated slot is the caller's, so not
one the tree owns, and a lock is taken on a node object that exists. -/
def step (s : LockState) : CacheOp → Option LockState
  | .matchPrefix inputIds pooled tic =>
    some { s with cache := (s.cache.matchPrefix inputIds pooled tic).1, returned := [] }
  | .insert inputIds kvIndices mambaValue pooledSums kind tic now =>
    if s.owns mambaValue then none
    else
      (s.cache.insert inputIds kvIndices mambaValue pooledSums kind tic now).map fun r =>
        { s with cache := r.1, returned := [] }
  | .incLock node =>
    if node < s.cache.next then
      some { cache := s.cache.incLock node
             locks := (node, (s.cache.node node).mambaValue) :: s.locks
             returned := [] }
    else none
  | .decLock i =>
    s.locks[i]?.bind fun k =>
      (s.cache.decLock k.1).map fun c => ⟨c, s.locks.eraseIdx i, []⟩
  | .evictFull numTokens ties =>
    let e := s.cache.evictFull numTokens ties
    some { s with cache := e.cache, returned := e.mambaSlots }
  | .evictMamba num =>
    let e := s.cache.evictMamba num
    some { s with cache := e.cache, returned := e.mambaSlots }

/-- No unlock gives back a snapshot reference its lock never took: a lock taken
while the node had no snapshot does not end while the node has a referenced one. -/
def StepOk (s : LockState) : CacheOp → Prop
  | .decLock i => ∀ k ∈ s.locks[i]?, k.2 = none → s.cache.givesBack k.1 = false
  | _ => True

instance (s : LockState) (a : CacheOp) : Decidable (s.StepOk a) := by
  cases a <;> unfold StepOk <;> infer_instance

/-- Every lock taken on a live snapshot still protects it. -/
def SnapshotsHeld (s : LockState) : Prop :=
  ∀ n slot, (n, some slot) ∈ s.locks →
    0 < (s.cache.node n).mambaRefCount ∧ (s.cache.node n).mambaValue = some slot ∧
      (s.cache.node n).linked = true ∧ slot ∉ s.returned ∧
      ∀ tic, (s.cache.matchPrefix (s.cache.pathTokens n) false tic).2 =
        ⟨s.cache.collectKv n, s.cache.pathLen n, some slot, n, s.cache.pathLen n⟩

-- ---------------------------------------------------------------------------
-- The invariant
-- ---------------------------------------------------------------------------

structure Inv (s : LockState) : Prop where
  wf : s.cache.Wf
  locks : LockInv s.cache.toRadixTree s.locks
  gone : ∀ slot ∈ s.returned, s.cache.SlotFree slot

theorem inv_init {ps : Nat} (hps : 0 < ps) : (init ps).Inv :=
  ⟨wf_empty hps, .empty ps, fun _ h => absurd h List.not_mem_nil⟩

theorem Inv.step {s s' : LockState} {a : CacheOp} (h : s.Inv) (hok : s.StepOk a)
    (hst : s.step a = some s') : s'.Inv := by
  have none_returned : ∀ {c : HybridRadixCache}, ∀ slot ∈ ([] : List Slot), c.SlotFree slot :=
    fun _ hs => absurd hs List.not_mem_nil
  cases a with
  | matchPrefix inputIds pooled tic =>
    cases hst
    exact ⟨walk_wf inputIds tic h.wf,
      (LockInv.walkKeeps s.locks).walk h.wf h.locks inputIds tic, none_returned⟩
  | insert inputIds kvIndices slot sums kind tic now =>
    rw [LockState.step] at hst
    split at hst
    · cases hst
    rename_i ho
    obtain ⟨⟨c, r⟩, hins, hs'⟩ := Option.map_eq_some_iff.mp hst
    cases hs'
    obtain ⟨hlocks, hwf⟩ := HybridRadixCache.insert_induct
      (LockInv.insertKeeps s.locks kvIndices slot) h.wf (HybridRadixCache.slotFree_of_owns h.wf ho) hins h.locks
    exact ⟨hwf, hlocks, none_returned⟩
  | incLock n =>
    rw [LockState.step] at hst
    split at hst
    · rename_i hn
      cases hst
      have hc := LockInv.counted_incLock s.cache n
      exact ⟨hc.wf h.wf, h.locks.incLock h.wf hn, none_returned⟩
    · cases hst
  | decLock i =>
    obtain ⟨k, hk, hst⟩ := Option.bind_eq_some_iff.mp hst
    obtain ⟨c, hdec, hs'⟩ := Option.map_eq_some_iff.mp hst
    cases hs'
    have hc := LockInv.counted_decLock hdec
    have hmem : k ∈ s.locks := List.mem_of_getElem? hk
    -- a lock on a live snapshot gives back what it took; the guard covers the others
    have hsettles : LockInv.Settles s.cache k := by
      rw [LockInv.Settles]
      cases hs : k.2 with
      | none => exact hok k hk hs
      | some slot => exact h.locks.givesBack_of_live hmem hs
    exact ⟨hc.wf_symm h.wf, h.locks.decLock h.wf hk hsettles hdec, none_returned⟩
  | evictFull numTokens ties =>
    cases hst
    obtain ⟨he, hwf⟩ := HybridRadixCache.evictFull_induct (LockInv.evictionKeeps s.locks) numTokens
      ties h.wf (LockInv.evicts_start h.locks)
    exact ⟨hwf, he.inv, he.gone⟩
  | evictMamba num =>
    cases hst
    obtain ⟨he, hwf⟩ := HybridRadixCache.evictMamba_induct (LockInv.evictionKeeps s.locks) num h.wf
      (LockInv.evicts_start h.locks)
    exact ⟨hwf, he.inv, he.gone⟩

/-- A match of a linked node's own tokens finds its live snapshot. -/
theorem matchPrefix_pathTokens {c : HybridRadixCache} (h : c.Wf) {n : NodeId} {slot : Slot}
    (hn : (c.node n).mambaValue = some slot) (tic : Time) :
    (c.matchPrefix (c.pathTokens n) false tic).2 =
      ⟨c.collectKv n, c.pathLen n, some slot, n, c.pathLen n⟩ := by
  have hlinked := h.snapshot_linked n slot hn
  obtain ⟨p, hp, -⟩ := h.linked_parent n hlinked
  obtain ⟨t', hres, hwalk⟩ := walk_pathTokens h (.inr hlinked) tic
  have hpath : t'.rootPath n = n :: c.rootPath p := by
    rw [hres.rootPath_eq, h.rootPath_cons hp]
  rw [HybridRadixCache.matchPrefix, HybridRadixCache.walk, hwalk]
  show HybridRadixCache.matchUp _ false (t'.rootPath n) (t'.pathLen n) none = _
  have hlive : (({ c with toRadixTree := t' } : HybridRadixCache).node n).mambaValue = some slot := by
    show (t'.node n).mambaValue = some slot
    rw [hres.mambaValue, hn]
  rw [hpath, HybridRadixCache.matchUp_of_live _ _ hlive, hres.pathLen_eq]
  show HybridMatch.mk (t'.collectKv n) _ _ _ _ = _
  rw [hres.collectKv_eq]
  rfl

theorem Inv.snapshotsHeld {s : LockState} (h : s.Inv) : s.SnapshotsHeld := by
  intro n slot hk
  have hlive := h.locks.live n slot hk
  refine ⟨?_, hlive, h.wf.snapshot_linked n slot hlive, fun hr => h.gone slot hr n hlive,
    matchPrefix_pathTokens h.wf hlive⟩
  exact LockInv.pos_of_givesBack (h.locks.givesBack_of_live hk rfl)

/-- In a run without a mismatched unlock, every snapshot that was live when an
outstanding lock was taken keeps its reference, stays in the tree, is not among
the slots the last step returned, and is what its tokens match. -/
theorem locked_snapshot_kept {ps : Nat} (hps : 0 < ps) {s : LockState}
    (hs : Reach step StepOk (init ps) s) : s.SnapshotsHeld :=
  (hs.invariant (inv_init hps) fun _ _ _ hi hok hst => hi.step hok hst).snapshotsHeld

/-- A snapshot locked and then evicted around. -/
theorem locked_snapshot_survives_eviction :
    ∃ s, guardedRun step StepOk (init 1)
        [.insert [1, 2] [10, 11] 7 none .chunk 1 1, .incLock 1,
          .insert [3] [12] 8 none .chunk 2 2, .evictMamba 2, .evictFull 9 id] = some s ∧
      (1, some 7) ∈ s.locks ∧ s.SnapshotsHeld := by
  have hrun : (guardedRun step StepOk (init 1)
      [.insert [1, 2] [10, 11] 7 none .chunk 1 1, .incLock 1,
        .insert [3] [12] 8 none .chunk 2 2, .evictMamba 2, .evictFull 9 id]).map
        LockState.locks = some [(1, some 7)] := by decide
  obtain ⟨s, hs, hlocks⟩ := Option.map_eq_some_iff.mp hrun
  refine ⟨s, hs, ?_, locked_snapshot_kept Nat.one_pos (reach_of_guardedRun _ hs)⟩
  rw [hlocks]
  exact List.mem_singleton_self _

/-- A lock on a node without a snapshot, a snapshot attached to it, a second lock;
ending the first lock drops the second one's reference, and the snapshot is evicted. -/
theorem kv_lock_releases_snapshot :
    ∃ s, Reach step (fun _ _ => True) (init 1) s ∧ (2, some 8) ∈ s.locks ∧ 8 ∈ s.returned ∧
      (s.cache.node 2).mambaRefCount = 0 ∧ ¬ s.SnapshotsHeld := by
  have hrun : (run step (init 1)
      [.insert [1, 2] [10, 11] 7 none .chunk 1 1, .matchPrefix [1] false 2, .incLock 2,
        .insert [1] [10] 8 none .chunk 3 3, .incLock 2, .decLock 1, .evictMamba 2]).map
        (fun s => (s.locks, s.returned, (s.cache.node 2).mambaRefCount)) =
      some ([(2, some 8)], [7, 8], 0) := by decide
  obtain ⟨s, hs, hv⟩ := Option.map_eq_some_iff.mp hrun
  rw [Prod.mk.injEq, Prod.mk.injEq] at hv
  obtain ⟨hlocks, hret, href⟩ := hv
  have hmem : (2, some 8) ∈ s.locks := by
    rw [hlocks]
    exact List.mem_singleton_self _
  refine ⟨s, reach_of_run _ hs, hmem, by rw [hret]; decide, href, fun hheld => ?_⟩
  have hpos := (hheld 2 8 hmem).1
  rw [href] at hpos
  cases hpos

end LockState

end FreeToken.KvCache
