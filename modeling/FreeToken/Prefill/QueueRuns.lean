import FreeToken.Lib.Reach
import FreeToken.Prefill.Finishability
import FreeToken.Prefill.Lanes

/-!
# The prefill queue

Runs of the `PrefillManager`: messages are queued and aborted, and passes schedule
batches, whose forward ends with `complete_one` on each request before the next pass.
Between passes the engine and the drain write the other fields of the request objects.
A prompt waits in the queue, has been forwarded, or was aborted; its chunks go from the
match to the end of the prompt, and the batch of the first has its admission entry.

## Results

* `Place.schedule` — what a pass does to one prompt;
* `queue_conserved` — every run.
-/

namespace FreeToken.Prefill

open FreeToken.Lib FreeToken.KvCache

variable {σ H : Type}

/-- A queued message, as `add_one_req` reads it. -/
structure UserMsg where
  uid : Uid
  inputIds : List Token
  outputLen : Nat
  mmItems : List (List (Nat × Nat))
  hiddenStates : Option Bool
  noPrefixCache : Bool
  prefixBoundary : Option Nat

def PendingReq.ofMsg (m : UserMsg) : PendingReq H where
  uid := m.uid
  inputIds := m.inputIds
  outputLen := m.outputLen
  chunkedReq := none
  mmItems := m.mmItems
  hiddenStates := m.hiddenStates
  noPrefixCache := m.noPrefixCache
  prefixBoundary := m.prefixBoundary

/-- The prompt's entry in the queue, with the chunk it has got to. -/
def PendingReq.ofMsgAt (m : UserMsg) (c : Req H) : PendingReq H :=
  { (PendingReq.ofMsg m : PendingReq H) with chunkedReq := some c }

/-- `complete_one`, of a request whose `device_len` is the length of its ids. -/
def Req.completeOne (q : Req H) : Req H := { q with cachedLen := q.inputIds.length }

/-- What is written in request objects between passes: never the window. -/
structure Rewrite (H : Type) where
  write : Req H → Req H
  cachedLen : ∀ q, (write q).cachedLen = q.cachedLen

structure Batch (H : Type) where
  reqs : List (Req H)
  promptAdmissions : List (Uid × Nat × Nat)

/-- The manager's queue, with the batches it returned, the messages queued and the
prompts that were aborted in the queue. -/
structure Queue (H : Type) where
  pendingList : List (PendingReq H)
  batches : List (Batch H)
  added : List UserMsg
  aborted : List Uid

inductive QueueCall (σ H : Type)
  | addOneReq (msg : UserMsg)
  | abortReq (uid : Uid)
  /-- `schedule_next_batch` against these pools, and the forward of its batch. -/
  | nextBatch (pools : σ) (running : List Running) (prefillBudget : Nat)
  | rewrite (w : Rewrite H)

/-- The forward of a batch: `complete_one` on each of its requests, one of which is the
entry's chunk. -/
def PendingReq.forwarded (reqs : List (Req H)) (r : PendingReq H) : PendingReq H :=
  if reqs.any fun q => decide (q.uid = r.uid) then
    { r with chunkedReq := r.chunkedReq.map Req.completeOne }
  else r

namespace Queue

def empty : Queue H := ⟨[], [], [], []⟩

/-- The batches after a pass; no request is no batch. -/
def recorded (s : Queue H) (res : PassResult σ H) : List (Batch H) :=
  if res.reqs.isEmpty then s.batches else s.batches ++ [⟨res.reqs, res.promptAdmissions⟩]

/-- The queue after a pass and its forward. -/
def passed (s : Queue H) (res : PassResult σ H) : Queue H :=
  { s with
    pendingList := res.pending.map (PendingReq.forwarded res.reqs)
    batches := s.recorded res }

/-- One call; `none` when it raises. -/
def step (cfg : PrefillConfig) (ops : PrefillOps σ H) (s : Queue H) :
    QueueCall σ H → Option (Queue H)
  | .addOneReq msg =>
    some { s with pendingList := s.pendingList ++ [.ofMsg msg], added := s.added ++ [msg] }
  | .abortReq uid =>
    some { s with
      pendingList := s.pendingList.eraseP fun r => r.uid = uid
      aborted := if s.pendingList.any fun r => r.uid = uid then uid :: s.aborted else s.aborted }
  | .nextBatch pools running prefillBudget =>
    (scheduleNextBatch cfg ops pools running s.pendingList prefillBudget).map
      s.passed
  | .rewrite w =>
    some { s with
      pendingList := s.pendingList.map fun r => { r with chunkedReq := r.chunkedReq.map w.write } }

/-- The frontend numbers the prompts with a counter. -/
def CallerOk (s : Queue H) : QueueCall σ H → Prop
  | .addOneReq msg => msg.uid ∉ s.added.map UserMsg.uid
  | _ => True

instance (s : Queue H) (a : QueueCall σ H) : Decidable (s.CallerOk a) :=
  match a with
  | .addOneReq msg => inferInstanceAs (Decidable (msg.uid ∉ s.added.map UserMsg.uid))
  | .abortReq _ | .nextBatch .. | .rewrite _ => inferInstanceAs (Decidable True)

end Queue

-- ---------------------------------------------------------------------------
-- The chunks of a prompt
-- ---------------------------------------------------------------------------

def Batch.chunks (b : Batch H) (u : Uid) : List (Req H) := b.reqs.filter fun q => q.uid = u

def Batch.entries (b : Batch H) (u : Uid) : List (Uid × Nat × Nat) :=
  b.promptAdmissions.filter fun e => e.1 = u

/-- The chunks of a prompt in the order they ran. -/
def chunksOf (bs : List (Batch H)) (u : Uid) : List (Req H) := bs.flatMap fun b => b.chunks u

/-- The windows of the chunks are not empty, and lie side by side from `a` to `b`. -/
def Tiles : Nat → List (Req H) → Nat → Prop
  | a, [], b => a = b
  | a, q :: qs, b => q.cachedLen = a ∧ a < q.inputIds.length ∧ Tiles q.inputIds.length qs b

/-- No batch has anything of the prompt. -/
def Untouched (bs : List (Batch H)) (u : Uid) : Prop := ∀ b ∈ bs, b.chunks u = [] ∧ b.entries u = []

/-- The first chunk is in one batch with the prompt's admission entry, and no other batch
has an entry for it. -/
def AdmittedOnce (bs : List (Batch H)) (m : UserMsg) (first : Req H) : Prop :=
  ∃ pre b post, bs = pre ++ b :: post ∧ Untouched pre m.uid ∧ b.chunks m.uid = [first] ∧
    b.entries m.uid = [(m.uid, m.inputIds.length, first.cachedLen)] ∧
    ∀ b' ∈ post, b'.entries m.uid = []

/-- The prompt has been run from its match up to `stop`. -/
structure RunTo (ops : PrefillOps σ H) (bs : List (Batch H)) (m : UserMsg) (stop : Nat) : Prop where
  chunks : ∃ first rest, chunksOf bs m.uid = first :: rest ∧
    first.cachedLen = ops.cachedLen first.cacheHandle ∧
    Tiles first.cachedLen (first :: rest) stop ∧ AdmittedOnce bs m first
  prompt : ∀ q ∈ chunksOf bs m.uid, q.inputIds <+: m.inputIds
  once : ∀ b ∈ bs, (b.chunks m.uid).length ≤ 1

namespace Queue

def queued (s : Queue H) (u : Uid) : List (PendingReq H) := s.pendingList.filter fun r => r.uid = u

/-- Where a prompt is: in the queue once, forwarded once, or aborted. -/
inductive Place (ops : PrefillOps σ H) (s : Queue H) (m : UserMsg) : Prop
  | waiting (hq : s.queued m.uid = [.ofMsg m]) (hrun : Untouched s.batches m.uid)
      (hab : m.uid ∉ s.aborted)
  | midway (c : Req H) (hq : s.queued m.uid = [.ofMsgAt m c])
      (hrun : RunTo ops s.batches m c.cachedLen)
      (hchunked : ∀ q ∈ chunksOf s.batches m.uid, q.isChunked = true) (hab : m.uid ∉ s.aborted)
  | forwarded (front : List (Req H)) (last : Req H) (hq : s.queued m.uid = [])
      (hrun : RunTo ops s.batches m m.inputIds.length)
      (hchunks : chunksOf s.batches m.uid = front ++ [last])
      (hchunked : ∀ q ∈ front, q.isChunked = true) (hlast : last.isChunked = false)
      (hab : m.uid ∉ s.aborted)
  | aborted (hq : s.queued m.uid = [])
      (hrun : Untouched s.batches m.uid ∨ ∃ stop, RunTo ops s.batches m stop)
      (hchunked : ∀ q ∈ chunksOf s.batches m.uid, q.isChunked = true) (hab : m.uid ∈ s.aborted)

structure Conserved (ops : PrefillOps σ H) (s : Queue H) : Prop where
  place : ∀ m ∈ s.added, s.Place ops m
  unknown : ∀ u ∉ s.added.map UserMsg.uid,
    s.queued u = [] ∧ Untouched s.batches u ∧ u ∉ s.aborted

end Queue

-- ---------------------------------------------------------------------------
-- One more batch
-- ---------------------------------------------------------------------------

variable {ops : PrefillOps σ H} {bs : List (Batch H)} {b : Batch H} {m : UserMsg} {u : Uid}
  {q : Req H} {r : PendingReq H} {stop : Nat}

theorem chunksOf_append (bs : List (Batch H)) (b : Batch H) (u : Uid) :
    chunksOf (bs ++ [b]) u = chunksOf bs u ++ b.chunks u := by
  rw [chunksOf, List.flatMap_append, List.flatMap_cons, List.flatMap_nil, List.append_nil]
  rfl

theorem Untouched.chunksOf (h : Untouched bs u) : chunksOf bs u = [] :=
  List.flatMap_eq_nil_iff.mpr fun b hb => (h b hb).1

theorem Untouched.skip (h : Untouched bs u) (hb : b.chunks u = []) (he : b.entries u = []) :
    Untouched (bs ++ [b]) u := by
  intro b' hb'
  rcases List.mem_append.mp hb' with hb' | hb'
  · exact h b' hb'
  · rw [List.mem_singleton.mp hb']
    exact ⟨hb, he⟩

theorem Tiles.snoc {a c : Nat} {l : List (Req H)} (h : Tiles a l c) (hq : ChunkOf r c q) :
    Tiles a (l ++ [q]) q.inputIds.length := by
  induction l generalizing a with
  | nil =>
    cases h
    exact ⟨hq.cachedLen, hq.lt, rfl⟩
  | cons q' l ih => exact ⟨h.1, h.2.1, ih h.2.2⟩

theorem AdmittedOnce.snoc {first : Req H} (h : AdmittedOnce bs m first)
    (he : b.entries m.uid = []) : AdmittedOnce (bs ++ [b]) m first := by
  obtain ⟨pre, b₀, post, rfl, hpre, hfirst, hentry, hpost⟩ := h
  refine ⟨pre, b₀, post ++ [b], List.append_assoc _ _ _, hpre, hfirst, hentry, fun b' hb' => ?_⟩
  rcases List.mem_append.mp hb' with hb' | hb'
  · exact hpost b' hb'
  · rw [List.mem_singleton.mp hb']
    exact he

namespace RunTo

/-- A batch without the prompt. -/
theorem skip (h : RunTo ops bs m stop) (hb : b.chunks m.uid = []) (he : b.entries m.uid = []) :
    RunTo ops (bs ++ [b]) m stop := by
  obtain ⟨first, rest, hchunks, hmatch, htiles, hadm⟩ := h.chunks
  have hsame : chunksOf (bs ++ [b]) m.uid = chunksOf bs m.uid := by
    rw [chunksOf_append, hb, List.append_nil]
  refine ⟨⟨first, rest, hsame.trans hchunks, hmatch, htiles, hadm.snoc he⟩, ?_, fun b' hb' => ?_⟩
  · rw [hsame]
    exact h.prompt
  · rcases List.mem_append.mp hb' with hb' | hb'
    · exact h.once b' hb'
    · rw [List.mem_singleton.mp hb', hb]
      exact Nat.zero_le _

theorem once_snoc (h : ∀ b' ∈ bs, (b'.chunks m.uid).length ≤ 1) (hb : b.chunks m.uid = [q]) :
    ∀ b' ∈ bs ++ [b], (b'.chunks m.uid).length ≤ 1 := by
  intro b' hb'
  rcases List.mem_append.mp hb' with hb' | hb'
  · exact h b' hb'
  · rw [List.mem_singleton.mp hb', hb]
    exact Nat.le_refl _

/-- A batch with the prompt's next chunk. -/
theorem next (h : RunTo ops bs m stop) (hb : b.chunks m.uid = [q]) (he : b.entries m.uid = [])
    (hr : r.inputIds = m.inputIds) (hq : ChunkOf r stop q) :
    RunTo ops (bs ++ [b]) m q.inputIds.length := by
  obtain ⟨first, rest, hchunks, hmatch, htiles, hadm⟩ := h.chunks
  have hmore : chunksOf (bs ++ [b]) m.uid = chunksOf bs m.uid ++ [q] := by
    rw [chunksOf_append, hb]
  refine ⟨⟨first, rest ++ [q], ?_, hmatch, htiles.snoc hq, hadm.snoc he⟩, fun q' hq' => ?_,
    once_snoc h.once hb⟩
  · rw [hmore, hchunks, List.cons_append]
  · rw [hmore] at hq'
    rcases List.mem_append.mp hq' with hq' | hq'
    · exact h.prompt q' hq'
    · rw [List.mem_singleton.mp hq', ← hr]
      exact hq.inputIds

/-- The batch with the prompt's first chunk. -/
theorem first (h : Untouched bs m.uid) (hb : b.chunks m.uid = [q])
    (he : b.entries m.uid = [(m.uid, m.inputIds.length, ops.cachedLen q.cacheHandle)])
    (hr : r.inputIds = m.inputIds) (hq : ChunkOf r (ops.cachedLen q.cacheHandle) q) :
    RunTo ops (bs ++ [b]) m q.inputIds.length := by
  have honly : chunksOf (bs ++ [b]) m.uid = [q] := by
    rw [chunksOf_append, h.chunksOf, hb, List.nil_append]
  refine ⟨⟨q, [], honly, hq.cachedLen, ⟨rfl, ?_, rfl⟩, bs, b, [], rfl, h, hb, ?_,
    fun _ hb' => absurd hb' List.not_mem_nil⟩, fun q' hq' => ?_, once_snoc (fun b' hb' => ?_) hb⟩
  · rw [hq.cachedLen]
    exact hq.lt
  · rw [he, hq.cachedLen]
  · rw [honly] at hq'
    rw [List.mem_singleton.mp hq', ← hr]
    exact hq.inputIds
  · rw [(h b' hb').1]
    exact Nat.zero_le _

end RunTo

-- ---------------------------------------------------------------------------
-- A pass
-- ---------------------------------------------------------------------------

section pass

variable {pending : List (PendingReq H)} {res : PassResult σ H} {outs : List (Outcome H)}

theorem Lane.unfinished_uid {r' : PendingReq H} {o : Option (Req H)} (_ : Lane ops r r' o)
    {r'' : PendingReq H} (h : Outcome.unfinished (r', o) = some r'') : r''.uid = r'.uid := by
  obtain ⟨q, -, hq⟩ := Option.bind_eq_some_iff.mp h
  split at hq
  · cases hq
    rfl
  · cases hq

theorem admission_uid {r r' : PendingReq H} {o : Option (Req H)} (h : Lane ops r r' o)
    {e : Uid × Nat × Nat} (he : Outcome.admission ops (r', o) = some e) : e.1 = r'.uid := by
  rw [Outcome.admission] at he
  split at he
  · cases he
  · obtain ⟨q, hq, rfl⟩ := Option.map_eq_some_iff.mp he
    exact h.uid.2 q hq

/-- What the pass did with the entries of one prompt. -/
theorem PassOutcomes.keyed (h : PassOutcomes ops pending res outs) (u : Uid) :
    ∃ os : List (Outcome H),
      List.Forall₂ (fun r o => Lane ops r o.1 o.2) (pending.filter fun r => r.uid = u) os ∧
        (⟨res.reqs, res.promptAdmissions⟩ : Batch H).chunks u = os.filterMap Prod.snd ∧
        (⟨res.reqs, res.promptAdmissions⟩ : Batch H).entries u =
          os.filterMap (Outcome.admission ops) ∧
        (res.pending.filter fun r => r.uid = u).Perm
          (os.filterMap Outcome.unfinished ++ os.filterMap Outcome.kept) := by
  have hlane : ∀ o ∈ outs, ∃ r, Lane ops r o.1 o.2 := fun o ho => by
    obtain ⟨r, -, hr⟩ := exists_of_forall₂ h.lanes ho
    exact ⟨r, hr⟩
  refine ⟨outs.filter fun o => o.1.uid = u, forall₂_filter h.lanes fun r o hr => ?_, ?_, ?_, ?_⟩
  · rw [hr.uid.1]
  · rw [Batch.chunks, h.reqs]
    refine filter_filterMap_keyed (fun o ho q hq => ?_) u
    obtain ⟨r, hr⟩ := hlane o ho
    exact hr.uid.2 q hq
  · rw [Batch.entries, h.promptAdmissions]
    refine filter_filterMap_keyed (fun o ho e he => ?_) u
    obtain ⟨r, hr⟩ := hlane o ho
    exact admission_uid hr he
  · refine (h.pending.filter _).trans ?_
    rw [List.filter_append]
    refine List.Perm.of_eq (congrArg₂ _ ?_ ?_)
    · refine filter_filterMap_keyed (fun o ho r' hr' => ?_) u
      obtain ⟨r, hr⟩ := hlane o ho
      exact hr.unfinished_uid hr'
    · refine filter_filterMap_keyed (fun o ho r' hr' => ?_) u
      rw [Outcome.kept] at hr'
      split at hr'
      · cases hr'
      · cases hr'
        rfl

/-- What the pass did with a prompt that has no entry. -/
theorem PassOutcomes.none_queued (h : PassOutcomes ops pending res outs)
    (hq : (pending.filter fun r => r.uid = u) = []) :
    (⟨res.reqs, res.promptAdmissions⟩ : Batch H).chunks u = [] ∧
      (⟨res.reqs, res.promptAdmissions⟩ : Batch H).entries u = [] ∧
      (res.pending.filter fun r => r.uid = u) = [] := by
  obtain ⟨os, hlanes, hchunks, hentries, hperm⟩ := h.keyed u
  rw [hq] at hlanes
  cases hlanes
  exact ⟨hchunks, hentries, hperm.eq_nil⟩

/-- What the pass did with a prompt that has one entry. -/
theorem PassOutcomes.one_queued (h : PassOutcomes ops pending res outs)
    (hq : (pending.filter fun r => r.uid = u) = [r]) :
    ∃ r' o, Lane ops r r' o ∧
      (⟨res.reqs, res.promptAdmissions⟩ : Batch H).chunks u = o.toList ∧
      (⟨res.reqs, res.promptAdmissions⟩ : Batch H).entries u =
        (Outcome.admission ops (r', o)).toList ∧
      (res.pending.filter fun r => r.uid = u) =
        (Outcome.unfinished (r', o)).toList ++ (Outcome.kept (r', o)).toList := by
  obtain ⟨os, hlanes, hchunks, hentries, hperm⟩ := h.keyed u
  rw [hq] at hlanes
  obtain ⟨⟨r', o⟩, _, hlane, hnil, rfl⟩ := List.forall₂_cons_left_iff.mp hlanes
  cases hnil
  have hsingle : ∀ {β : Type} (f : Outcome H → Option β), [(r', o)].filterMap f = (f (r', o)).toList :=
    fun f => by
      rw [List.filterMap_cons]
      cases f (r', o) <;> rfl
  rw [hsingle] at hchunks hentries
  rw [hsingle, hsingle] at hperm
  refine ⟨r', o, hlane, hchunks, hentries, ?_⟩
  cases o with
  | none => exact hperm.eq_singleton
  | some q =>
    rw [Outcome.unfinished, Outcome.kept, Option.bind_some] at hperm ⊢
    cases hc : q.isChunked with
    | true =>
      rw [hc] at hperm
      exact hperm.eq_singleton
    | false =>
      rw [hc] at hperm
      exact hperm.eq_nil

theorem forwarded_uid (reqs : List (Req H)) (r : PendingReq H) : (r.forwarded reqs).uid = r.uid := by
  rw [PendingReq.forwarded]
  split <;> rfl

theorem any_uid (reqs : List (Req H)) (u : Uid) :
    (reqs.any fun q => decide (q.uid = u)) = !(reqs.filter fun q => q.uid = u).isEmpty := by
  induction reqs with
  | nil => rfl
  | cons q reqs ih =>
    rw [List.any_cons, List.filter_cons, ih]
    cases decide (q.uid = u) <;> rfl

theorem forwarded_left {reqs : List (Req H)} (h : (reqs.filter fun q => q.uid = r.uid) = []) :
    r.forwarded reqs = r := by
  rw [PendingReq.forwarded, any_uid, h]
  rfl

theorem forwarded_ran {reqs : List (Req H)} (h : (reqs.filter fun q => q.uid = r.uid) = [q]) :
    ({ r with chunkedReq := some q } : PendingReq H).forwarded reqs =
      { r with chunkedReq := some q.completeOne } := by
  rw [PendingReq.forwarded]
  dsimp only
  rw [any_uid, h]
  rfl

end pass

namespace Queue

variable {s : Queue H} {res : PassResult σ H} {outs : List (Outcome H)}

theorem queued_passed (s : Queue H) (res : PassResult σ H) (u : Uid) :
    (s.passed res).queued u =
      (res.pending.filter fun r => r.uid = u).map (PendingReq.forwarded res.reqs) :=
  filter_map_keyed (forwarded_uid res.reqs) _ u

theorem recorded_cases (s : Queue H) (res : PassResult σ H) :
    s.recorded res = s.batches ∨
      s.recorded res = s.batches ++ [⟨res.reqs, res.promptAdmissions⟩] := by
  rw [recorded]
  split
  · exact .inl rfl
  · exact .inr rfl

theorem untouched_recorded (h : Untouched s.batches u)
    (hb : (⟨res.reqs, res.promptAdmissions⟩ : Batch H).chunks u = [])
    (he : (⟨res.reqs, res.promptAdmissions⟩ : Batch H).entries u = []) :
    Untouched (s.recorded res) u := by
  rcases recorded_cases s res with hr | hr
  · rw [hr]
    exact h
  · rw [hr]
    exact h.skip hb he

theorem runTo_recorded (h : RunTo ops s.batches m stop)
    (hb : (⟨res.reqs, res.promptAdmissions⟩ : Batch H).chunks m.uid = [])
    (he : (⟨res.reqs, res.promptAdmissions⟩ : Batch H).entries m.uid = []) :
    RunTo ops (s.recorded res) m stop := by
  rcases recorded_cases s res with hr | hr
  · rw [hr]
    exact h
  · rw [hr]
    exact h.skip hb he

theorem recorded_more (hq : (⟨res.reqs, res.promptAdmissions⟩ : Batch H).chunks u = [q]) :
    s.recorded res = s.batches ++ [⟨res.reqs, res.promptAdmissions⟩] := by
  rw [recorded, if_neg]
  intro hnil
  rw [Batch.chunks, List.isEmpty_iff.mp hnil] at hq
  cases hq

theorem chunksOf_recorded (s : Queue H)
    (hq : (⟨res.reqs, res.promptAdmissions⟩ : Batch H).chunks u = []) :
    chunksOf (s.recorded res) u = chunksOf s.batches u := by
  rcases recorded_cases s res with hr | hr
  · rw [hr]
  · rw [hr, chunksOf_append, hq, List.append_nil]

/-- The chunk at the end of a prompt is the whole prompt. -/
theorem inputIds_of_last {start : Nat} (hq : ChunkOf r start q) (h : q.isChunked = false) :
    q.inputIds = r.inputIds := by
  rw [hq.isChunked, decide_eq_false_iff_not, Nat.not_lt] at h
  exact hq.inputIds.eq_of_length_le h

/-- A prompt that has no entry in the queue. -/
theorem Place.gone (h : PassOutcomes ops s.pendingList res outs) (hplace : s.Place ops m)
    (hq : s.queued m.uid = []) : (s.passed res).Place ops m := by
  obtain ⟨hchunks, hentries, hpending⟩ := h.none_queued hq
  have hq' : (s.passed res).queued m.uid = [] := by
    rw [queued_passed, hpending]
    rfl
  have hsame := chunksOf_recorded s hchunks
  cases hplace with
  | waiting hw => rw [hq] at hw; cases hw
  | midway c hw => rw [hq] at hw; cases hw
  | forwarded front last _ hrun hcs hchunked hlast hab =>
    exact .forwarded front last hq' (runTo_recorded hrun hchunks hentries) (hsame.trans hcs) hchunked hlast hab
  | aborted _ hrun hchunked hab =>
    refine .aborted hq' (hrun.imp (fun hun => untouched_recorded hun hchunks hentries) ?_) ?_ hab
    · rintro ⟨stop, hrun⟩
      exact ⟨stop, runTo_recorded hrun hchunks hentries⟩
    · intro q hmem
      rw [show (s.passed res).batches = s.recorded res from rfl, hsame] at hmem
      exact hchunked q hmem

/-- The prompt's chunk `q` is in the batch. -/
theorem Place.ran (hq : (⟨res.reqs, res.promptAdmissions⟩ : Batch H).chunks m.uid = [q])
    {r' : PendingReq H} (hprompt : ∃ c, r' = { (PendingReq.ofMsg m : PendingReq H) with chunkedReq := c })
    (hpending : (res.pending.filter fun r => r.uid = m.uid) =
      (Outcome.unfinished (r', some q)).toList ++ (Outcome.kept (r', some q)).toList)
    (hrun : RunTo ops (s.batches ++ [⟨res.reqs, res.promptAdmissions⟩]) m q.inputIds.length)
    (hlast : q.isChunked = false → q.inputIds = m.inputIds)
    (hchunked : ∀ q ∈ chunksOf s.batches m.uid, q.isChunked = true) (hab : m.uid ∉ s.aborted) :
    (s.passed res).Place ops m := by
  obtain ⟨c, rfl⟩ := hprompt
  have hrec := recorded_more (s := s) hq
  have hcs : chunksOf (s.recorded res) m.uid = chunksOf s.batches m.uid ++ [q] := by
    rw [hrec, chunksOf_append, hq]
  rw [← hrec] at hrun
  rw [Outcome.unfinished, Outcome.kept, Option.bind_some] at hpending
  cases hc : q.isChunked with
  | true =>
    rw [hc] at hpending
    refine .midway q.completeOne ?_ hrun (fun q' hmem => ?_) hab
    · rw [queued_passed, hpending]
      exact congrArg (fun r => [r]) (forwarded_ran hq)
    · rw [show (s.passed res).batches = s.recorded res from rfl, hcs] at hmem
      rcases List.mem_append.mp hmem with hmem | hmem
      · exact hchunked q' hmem
      · rw [List.mem_singleton.mp hmem]
        exact hc
  | false =>
    rw [hc] at hpending
    rw [hlast hc] at hrun
    refine .forwarded (chunksOf s.batches m.uid) q ?_ hrun hcs hchunked hc hab
    rw [queued_passed, hpending]
    rfl

/-- What a pass and its forward do to one prompt. -/
theorem Place.schedule (h : PassOutcomes ops s.pendingList res outs) (hplace : s.Place ops m) :
    (s.passed res).Place ops m := by
  cases hplace with
  | forwarded front last hq hrun hcs hchunked hlast hab =>
    exact Place.gone h (.forwarded front last hq hrun hcs hchunked hlast hab) hq
  | aborted hq hrun hchunked hab => exact Place.gone h (.aborted hq hrun hchunked hab) hq
  | waiting hq hrun hab =>
    obtain ⟨r', o, hlane, hchunks, hentries, hpending⟩ := h.one_queued hq
    cases hlane with
    | left hprompt hat =>
      -- not reached in this pass
      have hr' : r' = .ofMsg m := by
        rw [hprompt, Option.map_eq_none_iff.mp hat]
        rfl
      refine .waiting ?_ (untouched_recorded hrun hchunks ?_) hab
      · rw [queued_passed, hpending, hr']
        exact congrArg (fun r => [r]) (forwarded_left hchunks)
      · rw [hentries, Outcome.admission, Option.map_none, ite_self]
        rfl
    | next q c hc => cases hc
    | first q hc hr hq' =>
      subst hr
      refine Place.ran hchunks ⟨none, rfl⟩ hpending (.first hrun hchunks ?_ rfl hq')
        (inputIds_of_last hq') (fun q hmem => ?_) hab
      · rw [hentries]
        show [(q.uid, m.inputIds.length, ops.cachedLen q.cacheHandle)] = _
        rw [show q.uid = m.uid from hq'.uid]
      · rw [hrun.chunksOf] at hmem
        cases hmem
  | midway c hq hrun hchunked hab =>
    obtain ⟨r', o, hlane, hchunks, hentries, hpending⟩ := h.one_queued hq
    cases hlane with
    | left hprompt hat =>
      obtain ⟨c', hc', hcached⟩ := Option.map_eq_some_iff.mp hat
      -- not reached either: what it holds has the same length cached
      have hr' : r' = .ofMsgAt m c' := by
        rw [hprompt, hc']
        rfl
      have hentries' : (⟨res.reqs, res.promptAdmissions⟩ : Batch H).entries m.uid = [] := by
        rw [hentries, Outcome.admission, Option.map_none, ite_self]
        rfl
      refine .midway c' ?_ ?_ ?_ hab
      · rw [queued_passed, hpending, hr']
        exact congrArg (fun r => [r]) (forwarded_left hchunks)
      · rw [hcached]
        exact runTo_recorded hrun hchunks hentries'
      · show ∀ q ∈ chunksOf (s.recorded res) m.uid, q.isChunked = true
        rw [chunksOf_recorded s hchunks]
        exact hchunked
    | next q c₀ hc hprompt hsome hq' =>
      cases hc
      refine Place.ran hchunks ⟨r'.chunkedReq, hprompt⟩ hpending
        (hrun.next hchunks ?_ rfl hq') (inputIds_of_last hq') hchunked hab
      rw [hentries, Outcome.admission, if_pos hsome]
      rfl
    | first q hc => cases hc

-- ---------------------------------------------------------------------------
-- The other calls
-- ---------------------------------------------------------------------------

/-- The prompt's place does not depend on the rest of the queue. -/
theorem Place.congr {s' : Queue H} (h : s.Place ops m) (hq : s'.queued m.uid = s.queued m.uid)
    (hbs : s'.batches = s.batches) (hab : m.uid ∈ s'.aborted ↔ m.uid ∈ s.aborted) :
    s'.Place ops m := by
  cases h with
  | waiting hw hrun hna => exact .waiting (hq.trans hw) (hbs ▸ hrun) fun h => hna (hab.mp h)
  | midway c hw hrun hc hna =>
    exact .midway c (hq.trans hw) (hbs ▸ hrun) (hbs ▸ hc) fun h => hna (hab.mp h)
  | forwarded front last hw hrun hcs hc hl hna =>
    exact .forwarded front last (hq.trans hw) (hbs ▸ hrun) (hbs ▸ hcs) hc hl fun h => hna (hab.mp h)
  | aborted hw hrun hc ha => exact .aborted (hq.trans hw) (hbs ▸ hrun) (hbs ▸ hc) (hab.mpr ha)

/-- Aborting an entry of the queue. -/
theorem Place.abort (h : s.Place ops m) (hne : s.queued m.uid ≠ []) {s' : Queue H}
    (hq : s'.queued m.uid = (s.queued m.uid).tail) (hbs : s'.batches = s.batches)
    (hab : m.uid ∈ s'.aborted) : s'.Place ops m := by
  cases h with
  | waiting hw hrun =>
    rw [hw] at hq
    refine .aborted hq (.inl (hbs ▸ hrun)) (fun q hmem => ?_) hab
    rw [hbs, hrun.chunksOf] at hmem
    cases hmem
  | midway c hw hrun hc =>
    rw [hw] at hq
    exact .aborted hq (.inr ⟨_, hbs ▸ hrun⟩) (hbs ▸ hc) hab
  | forwarded _ _ hw => exact absurd hw hne
  | aborted hw => exact absurd hw hne

theorem conserved_empty (ops : PrefillOps σ H) : (empty : Queue H).Conserved ops where
  place := fun _ hm => absurd hm List.not_mem_nil
  unknown := fun _ _ => ⟨rfl, fun _ hb => absurd hb List.not_mem_nil, List.not_mem_nil⟩

theorem Conserved.add (h : s.Conserved ops) {msg : UserMsg}
    (hnew : msg.uid ∉ s.added.map UserMsg.uid) :
    ({ s with pendingList := s.pendingList ++ [.ofMsg msg], added := s.added ++ [msg] } :
      Queue H).Conserved ops := by
  have hqueued : ∀ u, (s.pendingList ++ [PendingReq.ofMsg msg]).filter (fun r => r.uid = u) =
      s.queued u ++ if msg.uid = u then [PendingReq.ofMsg msg] else [] := fun u => by
    rw [List.filter_append, List.filter_cons, List.filter_nil]
    simp only [decide_eq_true_iff]
    rfl
  constructor
  · intro m hm
    rcases List.mem_append.mp hm with hm | hm
    · have hne : ¬ msg.uid = m.uid := fun he => hnew (he ▸ List.mem_map_of_mem hm)
      refine (h.place m hm).congr ?_ rfl Iff.rfl
      exact (hqueued m.uid).trans (by rw [if_neg hne, List.append_nil])
    · obtain rfl := List.mem_singleton.mp hm
      obtain ⟨hq, hun, hab⟩ := h.unknown m.uid hnew
      exact .waiting ((hqueued m.uid).trans (by rw [hq, if_pos rfl, List.nil_append])) hun hab
  · intro u hu
    rw [List.map_append, List.mem_append, not_or] at hu
    obtain ⟨hq, hun, hab⟩ := h.unknown u hu.1
    have hne : ¬ msg.uid = u := fun he => hu.2 (he ▸ List.mem_singleton_self _)
    exact ⟨(hqueued u).trans (by rw [hq, if_neg hne, List.append_nil]), hun, hab⟩

theorem Conserved.abort (h : s.Conserved ops) (uid : Uid) :
    ({ s with
      pendingList := s.pendingList.eraseP fun r => r.uid = uid
      aborted := if s.pendingList.any fun r => r.uid = uid then uid :: s.aborted else s.aborted } :
      Queue H).Conserved ops := by
  have hany : (s.pendingList.any fun r => decide (r.uid = uid)) = !(s.queued uid).isEmpty := by
    rw [queued]
    generalize s.pendingList = l
    induction l with
    | nil => rfl
    | cons r l ih =>
      rw [List.any_cons, List.filter_cons, ih]
      cases decide (r.uid = uid) <;> rfl
  have hself := filter_eraseP_keyed PendingReq.uid s.pendingList uid
  have hother := fun u (hu : u ≠ uid) => filter_eraseP_other PendingReq.uid s.pendingList hu
  have hmem : ∀ u, u ≠ uid →
      (u ∈ (if s.pendingList.any fun r => r.uid = uid then uid :: s.aborted else s.aborted) ↔
        u ∈ s.aborted) := by
    intro u hu
    split
    · rw [List.mem_cons, or_iff_right hu]
    · rfl
  constructor
  · intro m hm
    by_cases hu : m.uid = uid
    · subst hu
      cases hq : s.queued m.uid with
      | nil =>
        -- not in the queue: nothing happens
        rw [hq] at hany
        refine (h.place m hm).congr ?_ rfl ?_
        · refine hself.trans ?_
          show (s.queued m.uid).tail = s.queued m.uid
          rw [hq]
          rfl
        · dsimp only
          rw [hany]
          rfl
      | cons r l =>
        rw [hq] at hany
        refine (h.place m hm).abort (by rw [hq]; exact List.cons_ne_nil _ _) hself rfl ?_
        dsimp only
        rw [hany]
        exact List.mem_cons_self
    · exact (h.place m hm).congr (hother m.uid hu) rfl (hmem m.uid hu)
  · intro u hu
    obtain ⟨hq, hun, hab⟩ := h.unknown u hu
    by_cases he : u = uid
    · subst he
      rw [hq] at hany
      refine ⟨hself.trans ?_, hun, ?_⟩
      · show (s.queued u).tail = []
        rw [hq]
        rfl
      · dsimp only
        rw [hany]
        exact hab
    · exact ⟨(hother u he).trans hq, hun, fun hmem' => hab ((hmem u he).mp hmem')⟩

theorem Conserved.pass (h : s.Conserved ops) (hres : PassOutcomes ops s.pendingList res outs) :
    (s.passed res).Conserved ops where
  place := fun m hm => (h.place m hm).schedule hres
  unknown := fun u hu => by
    obtain ⟨hq, hun, hab⟩ := h.unknown u hu
    obtain ⟨hchunks, hentries, hpending⟩ := hres.none_queued hq
    refine ⟨?_, untouched_recorded hun hchunks hentries, hab⟩
    rw [queued_passed, hpending]
    rfl

theorem Conserved.rewrite (h : s.Conserved ops) (w : Rewrite H) :
    ({ s with
      pendingList := s.pendingList.map fun r => { r with chunkedReq := r.chunkedReq.map w.write } } :
      Queue H).Conserved ops := by
  have hq : ∀ u, ((s.pendingList.map fun r : PendingReq H =>
        { r with chunkedReq := r.chunkedReq.map w.write }).filter fun r => r.uid = u) =
      (s.queued u).map fun r => { r with chunkedReq := r.chunkedReq.map w.write } :=
    filter_map_keyed (fun _ => rfl) s.pendingList
  constructor
  · intro m hm
    cases h.place m hm with
    | waiting hw hrun hab => exact .waiting ((hq m.uid).trans (by rw [hw]; rfl)) hrun hab
    | midway c hw hrun hc hab =>
      refine .midway (w.write c) ((hq m.uid).trans (by rw [hw]; rfl)) ?_ hc hab
      rw [w.cachedLen]
      exact hrun
    | forwarded front last hw hrun hcs hc hl hab =>
      exact .forwarded front last ((hq m.uid).trans (by rw [hw]; rfl)) hrun hcs hc hl hab
    | aborted hw hrun hc hab => exact .aborted ((hq m.uid).trans (by rw [hw]; rfl)) hrun hc hab
  · intro u hu
    obtain ⟨hw, hun, hab⟩ := h.unknown u hu
    exact ⟨(hq u).trans (by rw [hw]; rfl), hun, hab⟩

theorem Conserved.step {cfg : PrefillConfig} {s' : Queue H} {a : QueueCall σ H}
    (hk : ops.KeepWindows) (h : s.Conserved ops) (hok : s.CallerOk a)
    (hst : s.step cfg ops a = some s') : s'.Conserved ops := by
  cases a with
  | addOneReq msg =>
    cases hst
    exact h.add hok
  | abortReq uid =>
    cases hst
    exact h.abort uid
  | nextBatch pools running prefillBudget =>
    obtain ⟨res, hrun, rfl⟩ := Option.map_eq_some_iff.mp hst
    obtain ⟨outs, hres⟩ := scheduleNextBatch_outcomes hk hrun
    exact h.pass hres
  | rewrite w =>
    cases hst
    exact h.rewrite w

/-- In every run of the queue, whatever the pools are at each pass: a prompt waits in the
queue once, was forwarded once, or was aborted there, and its chunks run it from its match
without a gap or an overlap. -/
theorem queue_conserved (cfg : PrefillConfig) (ops : PrefillOps σ H)
    (chunk : σ → Req H → σ × Option (ChunkCommit H))
    (boundary : σ → Req H → Req H → Nat → σ × Option (BoundaryCommit H)) {s : Queue H}
    (hs : Reach (step cfg (ops.withCommits chunk boundary)) CallerOk empty s) :
    s.Conserved (ops.withCommits chunk boundary) :=
  hs.invariant (conserved_empty _) fun _ _ _ h hok hst =>
    h.step (ops.withCommits_keepWindows chunk boundary) hok hst

/-- Two prompts and three passes of three tokens, shared between the lanes: the second
prompt is aborted after its first chunk. -/
theorem two_prompts_conserved :
    ∃ s : Queue Unit,
      guardedRun (step ⟨true, 0, 0, 8, false⟩
          ((PrefillOps.flat 1 64).withCommits (fun s _ => (s, none)) fun s _ _ _ => (s, none)))
        CallerOk empty
        [.addOneReq ⟨1, [5, 6, 7, 8, 9], 1, [], none, false, none⟩, .nextBatch () [] 3,
          .addOneReq ⟨2, [3, 4, 2, 1], 1, [], none, false, none⟩, .nextBatch () [] 3,
          .abortReq 2, .nextBatch () [] 3] = some s ∧
      (s.batches.map fun b => b.reqs.map fun q => (q.uid, q.cachedLen, q.isChunked)) =
        [[(1, 0, true)], [(1, 3, true), (2, 0, true)], [(1, 4, false)]] ∧
      s.aborted = [2] ∧
      s.Conserved ((PrefillOps.flat 1 64).withCommits (fun s _ => (s, none))
        fun s _ _ _ => (s, none)) := by
  have hrun : (guardedRun (step ⟨true, 0, 0, 8, false⟩
      ((PrefillOps.flat 1 64).withCommits (fun s _ => (s, none)) fun s _ _ _ => (s, none)))
      CallerOk (empty : Queue Unit)
      [.addOneReq ⟨1, [5, 6, 7, 8, 9], 1, [], none, false, none⟩, .nextBatch () [] 3,
        .addOneReq ⟨2, [3, 4, 2, 1], 1, [], none, false, none⟩, .nextBatch () [] 3,
        .abortReq 2, .nextBatch () [] 3]).map (fun s =>
        ((s.batches.map fun b => b.reqs.map fun q => (q.uid, q.cachedLen, q.isChunked)),
          s.aborted)) =
      some ([[(1, 0, true)], [(1, 3, true), (2, 0, true)], [(1, 4, false)]], [2]) := by
    decide
  obtain ⟨s, hs, hv⟩ := Option.map_eq_some_iff.mp hrun
  rw [Prod.mk.injEq] at hv
  exact ⟨s, hs, hv.1, hv.2, queue_conserved _ _ _ _ (reach_of_guardedRun _ hs)⟩

end Queue

end FreeToken.Prefill
