import FreeToken.Lib.Keyed
import FreeToken.Prefill.Pass
import Mathlib.Order.Basic

/-!
# The lanes of a pass

What a prefill pass does with each entry of the queue: it leaves the entry, or runs a
chunk of its prompt. A chunk starts where the last one ended, or at the match; the caps
only move its end earlier, and it is a plain request exactly when it ends at the end of
the prompt.

## Results

* `chunkSize_le` — the caps;
* `tryAddOne_lane` — one entry;
* `scheduleNextBatch_outcomes` — the queue and the batch after a pass, entry by entry.
-/

namespace FreeToken.Prefill

open FreeToken.Lib FreeToken.KvCache

variable {σ H : Type}

-- ---------------------------------------------------------------------------
-- The commits
-- ---------------------------------------------------------------------------

/-- What `commit_chunk_snapshot` writes in the request. -/
structure ChunkCommit (H : Type) where
  cacheHandle : H
  mambaPingPong : List Slot
  mambaLastTrackSeqlen : Option Nat

/-- What `commit_prefix_boundary` writes: the handle in both requests, and the slot that
the forward copies the live state into when the tree took it. -/
structure BoundaryCommit (H : Type) where
  cacheHandle : H
  mambaBoundaryCopy : Option Slot

namespace Req

def commitChunk (q : Req H) (w : ChunkCommit H) : Req H :=
  { q with
    cacheHandle := w.cacheHandle
    mambaPingPong := w.mambaPingPong
    mambaLastTrackSeqlen := w.mambaLastTrackSeqlen }

def commitBoundary (q : Req H) (w : BoundaryCommit H) : Req H :=
  { q with
    cacheHandle := w.cacheHandle
    mambaBoundaryCopy :=
      if w.mambaBoundaryCopy.isSome then w.mambaBoundaryCopy else q.mambaBoundaryCopy }

end Req

/-- The pools with commits that write those fields; a commit that returns early writes none. -/
def PrefillOps.withCommits (ops : PrefillOps σ H) (chunk : σ → Req H → σ × Option (ChunkCommit H))
    (boundary : σ → Req H → Req H → Nat → σ × Option (BoundaryCommit H)) : PrefillOps σ H :=
  { ops with
    commitChunkSnapshot := fun s q =>
      let w := chunk s q
      (w.1, w.2.elim q q.commitChunk)
    commitPrefixBoundary := fun s p q b =>
      let w := boundary s p q b
      (w.1, w.2.elim p fun w => { p with cacheHandle := w.cacheHandle },
        w.2.elim q q.commitBoundary) }

/-- The commits leave the windows of the requests alone. -/
structure PrefillOps.KeepWindows (ops : PrefillOps σ H) : Prop where
  chunk : ∀ s q, (ops.commitChunkSnapshot s q).2.cachedLen = q.cachedLen
  uid : ∀ s p q b, (ops.commitPrefixBoundary s p q b).2.2.uid = q.uid
  isChunked : ∀ s p q b, (ops.commitPrefixBoundary s p q b).2.2.isChunked = q.isChunked
  inputIds : ∀ s p q b, (ops.commitPrefixBoundary s p q b).2.2.inputIds = q.inputIds
  cachedLen : ∀ s p q b, (ops.commitPrefixBoundary s p q b).2.2.cachedLen = q.cachedLen

theorem PrefillOps.withCommits_keepWindows (ops : PrefillOps σ H)
    (chunk : σ → Req H → σ × Option (ChunkCommit H))
    (boundary : σ → Req H → Req H → Nat → σ × Option (BoundaryCommit H)) :
    (ops.withCommits chunk boundary).KeepWindows where
  chunk := fun s q => by
    show ((chunk s q).2.elim q q.commitChunk).cachedLen = q.cachedLen
    cases (chunk s q).2 <;> rfl
  uid := fun s p q b => by
    show ((boundary s p q b).2.elim q q.commitBoundary).uid = q.uid
    cases (boundary s p q b).2 <;> rfl
  isChunked := fun s p q b => by
    show ((boundary s p q b).2.elim q q.commitBoundary).isChunked = q.isChunked
    cases (boundary s p q b).2 <;> rfl
  inputIds := fun s p q b => by
    show ((boundary s p q b).2.elim q q.commitBoundary).inputIds = q.inputIds
    cases (boundary s p q b).2 <;> rfl
  cachedLen := fun s p q b => by
    show ((boundary s p q b).2.elim q q.commitBoundary).cachedLen = q.cachedLen
    cases (boundary s p q b).2 <;> rfl

-- ---------------------------------------------------------------------------
-- The size of a chunk
-- ---------------------------------------------------------------------------

theorem mmChunkEndLoop_le (chunkLo stop align : Nat) (spans : List (Nat × Nat)) {cut : Nat}
    (h : cut ≤ stop) : mmChunkEndLoop chunkLo stop align spans cut ≤ stop := by
  induction spans generalizing cut with
  | nil => exact h
  | cons s spans ih =>
    obtain ⟨lo, hi⟩ := s
    rw [mmChunkEndLoop]
    split
    · rename_i hcut
      split
      · exact Nat.le_refl _
      split
      · exact Nat.le_refl _
      · exact ih ((alignDown_le lo align).trans (hcut.1.le.trans h))
    · exact ih h

namespace PrefillAdder

variable {ops : PrefillOps σ H} {a a' : PrefillAdder σ H} {r r' : PendingReq H}

theorem swaCap_le {cachedLen floor evicted remain size n : Nat}
    (h : a.swaCap ops cachedLen floor evicted remain size = some n) : n ≤ size := by
  rw [swaCap] at h
  split at h
  · exact Nat.le_of_eq (Option.some.inj h).symm
  dsimp only at h
  split at h
  · split at h
    · cases h
    · refine (Nat.le_of_eq (Option.some.inj h).symm).trans ?_
      refine (Nat.sub_le_sub_right (alignDown_le _ _) _).trans ?_
      rw [Nat.add_sub_cancel_left]
      exact Nat.min_le_left _ _
  · exact (Nat.le_of_eq (Option.some.inj h).symm).trans (Nat.min_le_left _ _)

theorem alignCap_le (cachedLen remain size : Nat) : alignCap ops cachedLen remain size ≤ size := by
  rw [alignCap]
  split
  · dsimp only
    split
    · refine (Nat.sub_le_sub_right (alignDown_le _ _) _).trans ?_
      rw [Nat.add_sub_cancel_left]
    · exact Nat.le_refl _
  · exact Nat.le_refl _

theorem segmentCap_le (r : PendingReq H) (cachedLen size : Nat) :
    segmentCap ops r cachedLen size ≤ size := by
  rw [segmentCap]
  split
  · exact Nat.le_refl _
  · split
    · omega
    · exact Nat.le_refl _

theorem imageCap_le {cachedLen remain size n : Nat}
    (h : a.imageCap ops r cachedLen remain size = some n) : n ≤ size := by
  have hend := fun unit => mmChunkEndLoop_le cachedLen (cachedLen + size) unit
    (descendingSpans r.mmItems) (Nat.le_refl _)
  rw [imageCap] at h
  split at h
  · dsimp only at h
    rw [mmChunkEnd] at h
    split at h
    · split at h
      · cases h
      · have := hend (Nat.lcm (if ops.swaPaged then ops.pageSize else 1)
          (if 1 < ops.prefillChunkAlign then ops.prefillChunkAlign else 1))
        have := Option.some.inj h
        omega
    · have := hend (Nat.lcm (if ops.swaPaged then ops.pageSize else 1)
        (if 1 < ops.prefillChunkAlign then ops.prefillChunkAlign else 1))
      have := Option.some.inj h
      omega
  · exact Nat.le_of_eq (Option.some.inj h).symm

/-- The caps after the page cap only move the end earlier. -/
theorem caps_le {cachedLen floor evicted remain size n : Nat}
    (h : (if size = 0 then none
      else (a.swaCap ops cachedLen floor evicted remain size).bind fun size =>
        a.imageCap ops r cachedLen remain
          (segmentCap ops r cachedLen (alignCap ops cachedLen remain size))) = some n) :
    n ≤ size := by
  split at h
  · cases h
  obtain ⟨size', hswa, himage⟩ := Option.bind_eq_some_iff.mp h
  calc n ≤ segmentCap ops r cachedLen (alignCap ops cachedLen remain size') := imageCap_le himage
    _ ≤ alignCap ops cachedLen remain size' := segmentCap_le _ _ _
    _ ≤ size' := alignCap_le _ _ _
    _ ≤ size := swaCap_le hswa

theorem chunkSize_le {h : H} {cachedLen evicted n : Nat} {k : Option Nat}
    (hsize : a.chunkSize ops r h cachedLen evicted k = some n) :
    n ≤ r.inputLen - cachedLen ∧ n ≤ a.kvChunkEnd ops cachedLen - cachedLen := by
  unfold chunkSize at hsize
  cases k with
  | none =>
    have hle := caps_le hsize
    exact ⟨hle.trans ((Nat.min_le_left _ _).trans (Nat.min_le_right _ _)),
      hle.trans (Nat.min_le_right _ _)⟩
  | some k =>
    have hle := caps_le hsize
    exact ⟨hle.trans ((Nat.min_le_left _ _).trans ((Nat.min_le_left _ _).trans
      (Nat.min_le_right _ _))), hle.trans (Nat.min_le_right _ _)⟩

-- ---------------------------------------------------------------------------
-- One entry
-- ---------------------------------------------------------------------------

end PrefillAdder

/-- The request runs the prompt of `r` from `start`. -/
structure ChunkOf (r : PendingReq H) (start : Nat) (q : Req H) : Prop where
  uid : q.uid = r.uid
  cachedLen : q.cachedLen = start
  lt : start < q.inputIds.length
  inputIds : q.inputIds <+: r.inputIds
  isChunked : q.isChunked = decide (q.inputIds.length < r.inputLen)

/-- What became of the entry `r`: `r'`, with the request it was admitted as. -/
inductive Lane (ops : PrefillOps σ H) (r r' : PendingReq H) : Option (Req H) → Prop
  | left (hprompt : r' = { r with chunkedReq := r'.chunkedReq })
      (hat : r'.chunkedReq.map Req.cachedLen = r.chunkedReq.map Req.cachedLen) : Lane ops r r' none
  | next (q c : Req H) (hc : r.chunkedReq = some c)
      (hprompt : r' = { r with chunkedReq := r'.chunkedReq }) (hsome : r'.chunkedReq.isSome = true)
      (hq : ChunkOf r c.cachedLen q) : Lane ops r r' (some q)
  | first (q : Req H) (hc : r.chunkedReq = none) (hr : r' = r)
      (hq : ChunkOf r (ops.cachedLen q.cacheHandle) q) : Lane ops r r' (some q)

theorem Lane.refl (ops : PrefillOps σ H) (r : PendingReq H) : Lane ops r r none := .left rfl rfl

theorem Lane.uid {ops : PrefillOps σ H} {r r' : PendingReq H} {o : Option (Req H)}
    (h : Lane ops r r' o) : r'.uid = r.uid ∧ ∀ q, o = some q → q.uid = r'.uid := by
  cases h with
  | left hprompt hat =>
    rw [hprompt]
    exact ⟨rfl, fun q hq => by cases hq⟩
  | next q c hc hprompt hsome hq =>
    rw [hprompt]
    refine ⟨rfl, fun q' hq' => ?_⟩
    cases hq'
    exact hq.uid
  | first q hc hr hq =>
    rw [hr]
    refine ⟨rfl, fun q' hq' => ?_⟩
    cases hq'
    exact hq.uid

namespace PrefillAdder

variable {ops : PrefillOps σ H} {a a' : PrefillAdder σ H} {r r' : PendingReq H}
  {o : Option (Req H)} {k : Option Nat}

theorem addOneReq_chunkOf {c : Carry H} {q : Req H}
    (hadd : a.addOneReq ops r c k = some (a', some q)) :
    ChunkOf r c.cachedLen q ∧ q.cacheHandle = c.cacheHandle := by
  rw [addOneReq] at hadd
  split at hadd
  · cases hadd
  · cases hadd
  rename_i size hsize
  have hle := (chunkSize_le hsize).1
  cases hadd
  have hlen : (r.inputIds.take (c.cachedLen + (size + 1))).length = c.cachedLen + (size + 1) := by
    refine List.length_take_of_le ?_
    rw [PendingReq.inputLen] at hle
    omega
  refine ⟨⟨rfl, rfl, ?_, List.take_prefix _ _, ?_⟩, rfl⟩
  · rw [hlen]
    omega
  · rw [hlen]
    exact decide_eq_decide.mpr (by omega)

theorem addChunk_lane (hk : ops.KeepWindows) {c : Req H} (hc : r.chunkedReq = some c)
    (hadd : a.addChunk ops r c k = some (a', r', o)) : Lane ops r r' o := by
  have hcached := hk.chunk a.pools c
  rw [addChunk] at hadd
  dsimp only at hadd
  generalize ops.commitChunkSnapshot a.pools c = w at hadd hcached
  obtain ⟨⟨b, o'⟩, hone, heq⟩ := Option.map_eq_some_iff.mp hadd
  dsimp only at heq
  cases o' with
  | none =>
    cases heq
    refine .left rfl ?_
    rw [hc]
    exact congrArg some hcached
  | some q =>
    obtain ⟨hq, -⟩ := addOneReq_chunkOf hone
    rw [show (Carry.cachedLen _ : Nat) = c.cachedLen from hcached] at hq
    have hof : ChunkOf r c.cachedLen q := ⟨hq.uid, hq.cachedLen, hq.lt, hq.inputIds, hq.isChunked⟩
    dsimp only at heq
    split at heq
    · cases heq
      refine .next _ c hc rfl rfl ⟨?_, ?_, ?_, ?_, ?_⟩
      · exact (hk.uid _ _ _ _).trans hof.uid
      · exact (hk.cachedLen _ _ _ _).trans hof.cachedLen
      · rw [hk.inputIds]
        exact hof.lt
      · rw [hk.inputIds]
        exact hof.inputIds
      · rw [hk.inputIds, hk.isChunked]
        exact hof.isChunked
    · cases heq
      exact .next q c hc rfl rfl hof

theorem addFresh_lane (hc : r.chunkedReq = none)
    (hadd : a.addFresh ops r k = some (a', r', o)) : Lane ops r r' o := by
  rw [addFresh] at hadd
  generalize a.tryAllocateOne ops r = t at hadd
  split at hadd
  · cases hadd
    exact .refl ops r
  obtain ⟨⟨b, o'⟩, hone, heq⟩ := Option.map_eq_some_iff.mp hadd
  dsimp only at heq
  cases o' with
  | none =>
    cases heq
    exact .refl ops r
  | some q =>
    cases heq
    obtain ⟨hq, hhandle⟩ := addOneReq_chunkOf hone
    refine .first q hc rfl ?_
    rw [hhandle]
    exact hq

theorem tryAddOne_lane (hk : ops.KeepWindows) (hadd : a.tryAddOne ops r k = some (a', r', o)) :
    Lane ops r r' o := by
  rw [tryAddOne] at hadd
  split at hadd
  · cases hadd
    exact .refl ops r
  split at hadd
  · rename_i hc
    exact addChunk_lane hk hc hadd
  · rename_i hc
    exact addFresh_lane hc hadd

end PrefillAdder

-- ---------------------------------------------------------------------------
-- The queue
-- ---------------------------------------------------------------------------

/-- An entry after the pass, and the request it was admitted as. -/
abbrev Outcome (H : Type) := PendingReq H × Option (Req H)

namespace Outcome

/-- An admitted prompt with more chunks to go. -/
def unfinished (o : Outcome H) : Option (PendingReq H) :=
  o.2.bind fun q => if q.isChunked then some { o.1 with chunkedReq := some q } else none

def kept (o : Outcome H) : Option (PendingReq H) := if o.2.isSome then none else some o.1

def admission (ops : PrefillOps σ H) (o : Outcome H) : Option (Uid × Nat × Nat) :=
  if o.1.chunkedReq.isSome then none
  else o.2.map fun q => (q.uid, o.1.inputLen, ops.cachedLen q.cacheHandle)

end Outcome

/-- The loop's lists grew by the outcomes of the entries `todo`. -/
structure Served (ops : PrefillOps σ H) (todo : List (PendingReq H)) (p p' : Pass σ H)
    (outs : List (Outcome H)) : Prop where
  lanes : List.Forall₂ (fun r o => Lane ops r o.1 o.2) todo outs
  reqs : p'.reqs = p.reqs ++ outs.filterMap Prod.snd
  chunkedList : p'.chunkedList = p.chunkedList ++ outs.filterMap Outcome.unfinished
  remaining : p'.remaining = p.remaining ++ outs.filterMap Outcome.kept
  promptAdmissions : p'.promptAdmissions =
    p.promptAdmissions ++ outs.filterMap (Outcome.admission ops)

namespace Served

variable {ops : PrefillOps σ H} {todo rest : List (PendingReq H)} {p p' : Pass σ H}
  {outs : List (Outcome H)} {r r' : PendingReq H} {q : Req H}

/-- The pass stops before the entries `todo`. -/
theorem stop (todo : List (PendingReq H)) (b : Bool) :
    Served ops todo p { p with remaining := p.remaining ++ todo, stoppedForLaneCap := b }
      (todo.map fun r => (r, none)) := by
  have hnone : ∀ {β : Type} (f : Outcome H → Option β), (∀ r, f (r, none) = none) →
      (todo.map fun r => (r, (none : Option (Req H)))).filterMap f = [] := by
    intro β f hf
    rw [List.filterMap_map]
    exact List.filterMap_eq_nil_iff.mpr fun r _ => hf r
  refine ⟨?_, ?_, ?_, ?_, ?_⟩
  · rw [List.forall₂_map_right_iff]
    exact List.forall₂_same.mpr fun r _ => .refl ops r
  · rw [hnone Prod.snd fun _ => rfl, List.append_nil]
  · rw [hnone Outcome.unfinished fun _ => rfl, List.append_nil]
  · rw [List.filterMap_map]
    exact congrArg _ (List.filterMap_some).symm
  · rw [hnone (Outcome.admission ops) fun r => ite_self _, List.append_nil]

/-- An entry is left in the queue. -/
theorem left (a' : PrefillAdder σ H) (hlane : Lane ops r r' none)
    (h : Served ops rest ({ p with adder := a' }.keep r') p' outs) :
    Served ops (r :: rest) p p' ((r', none) :: outs) where
  lanes := .cons hlane h.lanes
  reqs := h.reqs
  chunkedList := h.chunkedList
  remaining := h.remaining.trans (List.append_assoc _ _ _)
  promptAdmissions := by
    rw [List.filterMap_cons, show Outcome.admission ops (r', none) = none from ite_self _]
    exact h.promptAdmissions

/-- An entry is admitted. -/
theorem added {a' : PrefillAdder σ H} (hlane : Lane ops r r' (some q))
    (h : Served ops rest ({ p with adder := a' }.admitted ops r' r.chunkedReq.isSome q) p' outs) :
    Served ops (r :: rest) p p' ((r', some q) :: outs) := by
  refine ⟨.cons hlane h.lanes, h.reqs.trans (List.append_assoc _ _ _), ?_, h.remaining, ?_⟩
  · rw [h.chunkedList, List.filterMap_cons, Pass.admitted, Outcome.unfinished]
    dsimp only [Option.bind_some]
    split
    · exact List.append_assoc _ _ _
    · rfl
  · have hwas : r'.chunkedReq.isSome = r.chunkedReq.isSome := by
      cases hlane with
      | next _ c hc _ hsome _ => rw [hsome, hc]; rfl
      | first _ _ hr _ => rw [hr]
    have hin : r'.inputLen = r.inputLen := by
      cases hlane with
      | next _ c _ hprompt _ _ => rw [hprompt]; rfl
      | first _ _ hr _ => rw [hr]
    rw [h.promptAdmissions, List.filterMap_cons, Pass.admitted, Outcome.admission]
    dsimp only [Option.map_some]
    rw [hwas]
    split
    · rfl
    · exact List.append_assoc _ _ _

end Served

theorem passLoop_served {cfg : PrefillConfig} {ops : PrefillOps σ H} (hk : ops.KeepWindows)
    {cap seatable : Nat} {todo : List (PendingReq H)} {p p' : Pass σ H}
    (hrun : passLoop cfg ops cap seatable todo p = some p') :
    ∃ outs, Served ops todo p p' outs := by
  induction todo generalizing p with
  | nil =>
    cases hrun
    exact ⟨[], .nil, (List.append_nil _).symm, (List.append_nil _).symm, (List.append_nil _).symm,
      (List.append_nil _).symm⟩
  | cons r rest ih =>
    rw [passLoop] at hrun
    dsimp only at hrun
    split at hrun
    · -- over the cap on prompts mid-prefill
      obtain ⟨outs, h⟩ := ih hrun
      exact ⟨_, .left p.adder (.refl ops r) h⟩
    obtain ⟨⟨a', r', o⟩, hadd, hrun⟩ := Option.bind_eq_some_iff.mp hrun
    have hlane := PrefillAdder.tryAddOne_lane hk hadd
    dsimp only at hrun
    cases o with
    | some q =>
      dsimp only at hrun
      split at hrun
      · cases hrun
        exact ⟨_, .added hlane (.stop rest _)⟩
      · obtain ⟨outs, h⟩ := ih hrun
        exact ⟨_, .added hlane h⟩
    | none =>
      dsimp only at hrun
      split at hrun
      · obtain ⟨outs, h⟩ := ih hrun
        exact ⟨_, .left a' hlane h⟩
      · cases hrun
        have hstop : Served ops rest ({ p with adder := a' }.keep r') _ _ :=
          .stop rest p.stoppedForLaneCap
        have hremaining := hstop.remaining
        refine ⟨_, .left a' hlane ⟨hstop.lanes, hstop.reqs, hstop.chunkedList, ?_,
          hstop.promptAdmissions⟩⟩
        rw [← hremaining]
        exact (List.append_assoc p.remaining [r'] rest).symm

/-- The queue and the batch after a pass, up to the order of the queue. -/
structure PassOutcomes (ops : PrefillOps σ H) (pending : List (PendingReq H))
    (res : PassResult σ H) (outs : List (Outcome H)) : Prop where
  lanes : List.Forall₂ (fun r o => Lane ops r o.1 o.2) pending outs
  pending : res.pending.Perm
    (outs.filterMap Outcome.unfinished ++ outs.filterMap Outcome.kept)
  reqs : res.reqs = outs.filterMap Prod.snd
  promptAdmissions : res.promptAdmissions = outs.filterMap (Outcome.admission ops)

theorem scheduleNextBatch_outcomes {cfg : PrefillConfig} {ops : PrefillOps σ H}
    (hk : ops.KeepWindows) {s : σ} {running : List Running} {pending : List (PendingReq H)}
    {prefillBudget : Nat} {res : PassResult σ H}
    (hrun : scheduleNextBatch cfg ops s running pending prefillBudget = some res) :
    ∃ outs, PassOutcomes ops pending res outs := by
  rw [scheduleNextBatch] at hrun
  split at hrun
  · rename_i hnil
    cases hrun
    rw [hnil]
    exact ⟨[], .nil, .nil, rfl, rfl⟩
  obtain ⟨p, hloop, hres⟩ := Option.map_eq_some_iff.mp hrun
  obtain ⟨outs, h⟩ := passLoop_served hk hloop
  cases hres
  have hchunked := h.chunkedList
  have hremaining := h.remaining
  rw [List.nil_append] at hchunked hremaining
  refine ⟨outs, h.lanes, ?_, h.reqs.trans (List.nil_append _),
    h.promptAdmissions.trans (List.nil_append _)⟩
  dsimp only
  rw [hchunked, hremaining]
  split
  · -- no batch: every entry is left
    rename_i hnone
    have hall : outs.filterMap Prod.snd = [] := by
      rw [← hnone, h.reqs]
      rfl
    have hun : outs.filterMap Outcome.unfinished = [] := by
      rw [List.filterMap_eq_nil_iff] at hall ⊢
      intro o ho
      rw [Outcome.unfinished, hall o ho]
      rfl
    rw [hun]
    exact .refl _
  split
  · exact List.perm_append_comm
  · exact .refl _

end FreeToken.Prefill
