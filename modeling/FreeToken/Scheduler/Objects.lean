import FreeToken.Lib.Reach
import FreeToken.Scheduler.Frame

/-!
# Request objects in the queue, the running set and the batches

What the forward and the admission loop do to the request objects, and the
object invariant of every run of either loop (`reach_wf`):

* the chunk a queued prompt points to is a chunk of that prompt and of no other;
* the running set holds each object once and holds no chunk;
* a batch holds each object once.
-/

namespace FreeToken.Scheduler

variable {C H ρ E : Type} (ops : CacheOps C H ρ E) (cfg : Config)

-- ---------------------------------------------------------------------------
-- The forward
-- ---------------------------------------------------------------------------

/-- The token the forward of a request samples next. -/
def sampledToken (r : Req ρ) : Token := cfg.script r.uid (r.deviceLen - r.promptLen)

theorem forwardRow_fst (isPrefill : Bool) (acc : State C H ρ × List (ReqId × Token))
    (rid : ReqId) :
    ∃ cache res, (forwardRow ops cfg isPrefill acc rid).1 =
      { acc.1 with
        cache := cache
        reqs := Function.update acc.1.reqs rid
          { (acc.1.reqs rid).completeOne with res := res } } :=
  ⟨_, _, rfl⟩

theorem foldl_forwardRow_cases (isPrefill : Bool) (rids : List ReqId) (hnd : rids.Nodup) :
    ∀ (s : State C H ρ) (rows : List (ReqId × Token)), ∃ cache reqs,
      (rids.foldl (forwardRow ops cfg isPrefill) (s, rows)).1 =
        { s with cache := cache, reqs := reqs } ∧
      (∀ rid ∈ rids, (reqs rid).core = (s.reqs rid).completeOne.core) ∧
      (∀ rid, rid ∉ rids → reqs rid = s.reqs rid) ∧
      (rids.foldl (forwardRow ops cfg isPrefill) (s, rows)).2 =
        rows ++ rids.map fun rid => (rid, sampledToken cfg (s.reqs rid)) := by
  induction rids with
  | nil =>
    intro s rows
    exact ⟨s.cache, s.reqs, rfl, by simp, fun _ _ => rfl, by simp⟩
  | cons r rids ih =>
    intro s rows
    obtain ⟨hr, hnd⟩ := List.nodup_cons.mp hnd
    obtain ⟨cache₁, res₁, h₁⟩ := forwardRow_fst ops cfg isPrefill (s, rows) r
    obtain ⟨cache, reqs, heq, hin, hout, hrows⟩ :=
      ih hnd (forwardRow ops cfg isPrefill (s, rows) r).1
        (rows ++ [(r, sampledToken cfg (s.reqs r))])
    rw [h₁] at heq hin hout hrows
    -- the rows behind `r` are of other requests
    have hne : ∀ rid ∈ rids, Function.update s.reqs r
        { (s.reqs r).completeOne with res := res₁ } rid = s.reqs rid := by
      intro rid hmem
      have : rid ≠ r := fun h => hr (h ▸ hmem)
      exact Function.update_of_ne this ..
    have hfold : rids.foldl (forwardRow ops cfg isPrefill)
        (forwardRow ops cfg isPrefill (s, rows) r) =
        rids.foldl (forwardRow ops cfg isPrefill)
          ({ s with
              cache := cache₁
              reqs := Function.update s.reqs r
                { (s.reqs r).completeOne with res := res₁ } },
            rows ++ [(r, sampledToken cfg (s.reqs r))]) := by
      congr 1
      rw [← h₁]
      rfl
    rw [List.foldl_cons, hfold]
    refine ⟨cache, reqs, heq, ?_, ?_, ?_⟩
    · intro rid hmem
      rcases List.mem_cons.mp hmem with rfl | hmem
      · rw [hout _ hr]
        dsimp only
        rw [Function.update_self]
        rfl
      · rw [hin rid hmem]
        dsimp only
        rw [hne rid hmem]
    · intro rid hmem
      obtain ⟨hne', hmem⟩ := not_or.mp (fun h => hmem (List.mem_cons.mpr h))
      rw [hout rid hmem]
      exact Function.update_of_ne hne' ..
    · rw [hrows, List.append_assoc, List.singleton_append, List.map_cons]
      congr 2
      apply List.map_congr_left
      intro rid hmem
      dsimp only
      rw [hne rid hmem]

theorem mem_foldl_insert (rids run : List ReqId) (r : ReqId) :
    r ∈ rids.foldl (fun run r => run.insert r) run ↔ r ∈ run ∨ r ∈ rids := by
  induction rids generalizing run with
  | nil => simp
  | cons r' rids ih =>
    rw [List.foldl_cons, ih, List.mem_insert_iff, List.mem_cons]
    tauto

theorem nodup_foldl_insert (rids run : List ReqId) (h : run.Nodup) :
    (rids.foldl (fun run r => run.insert r) run).Nodup := by
  induction rids generalizing run with
  | nil => exact h
  | cons r' rids ih => exact ih _ (h.insert)

/-- A request runs after `filter_reqs` when it ran before or was in the batch,
and has output budget left. -/
theorem mem_filterReqs (s : State C H ρ) (rids : List ReqId) (r : ReqId) :
    r ∈ (filterReqs s rids).runningReqs ↔
      (r ∈ s.runningReqs ∨ r ∈ rids) ∧ (s.reqs r).canDecode = true := by
  rw [filterReqs, List.mem_filter, mem_foldl_insert]

/-- All a prepared and forwarded batch changes. -/
theorem forwardBatch_cases (s : State C H ρ) (isPrefill : Bool) (rids : List ReqId)
    (hnd : rids.Nodup) : ∃ cache reqs,
      (forwardBatch ops cfg s isPrefill rids).1 =
        filterReqs { s with cache := cache, reqs := reqs } rids ∧
      (∀ rid ∈ rids, (reqs rid).core = (s.reqs rid).completeOne.core) ∧
      (∀ rid, rid ∉ rids → reqs rid = s.reqs rid) ∧
      (forwardBatch ops cfg s isPrefill rids).2 =
        ⟨isPrefill, rids.map fun rid => (rid, sampledToken cfg (s.reqs rid))⟩ := by
  obtain ⟨cache, reqs, heq, hin, hout, hrows⟩ :=
    foldl_forwardRow_cases ops cfg isPrefill rids hnd (prepareBatch ops s isPrefill rids) []
  refine ⟨cache, reqs, ?_, hin, hout, ?_⟩
  · rw [forwardBatch, forwardRows, heq]
    rfl
  · rw [forwardBatch, forwardRows, hrows]
    rfl

-- ---------------------------------------------------------------------------
-- The admission loop as a whole
-- ---------------------------------------------------------------------------

/-- Induction over the admission loop. A prompt the loop did not reach is a
prompt it kept, so the property need only survive `LaneStep`. -/
theorem passLoop_induction {P : PassAcc C H ρ → List PendingReq → Prop}
    (hstep : ∀ acc p ps acc', P acc (p :: ps) → LaneStep acc p acc' → P acc' ps) :
    ∀ (ps : List PendingReq) (inps : List (LaneInput E)) (acc acc' : PassAcc C H ρ),
      P acc ps → passLoop ops acc ps inps = some acc' → P acc' [] := by
  have hkeep : ∀ (ps : List PendingReq) (acc : PassAcc C H ρ), P acc ps →
      P { acc with remaining := acc.remaining ++ ps } [] := by
    intro ps
    induction ps with
    | nil =>
      intro acc h
      rw [List.append_nil]
      exact h
    | cons p ps ih =>
      intro acc h
      have h₁ := ih _ (hstep acc p ps _ h (.kept acc.state (CacheOnly.refl _)))
      rw [List.append_assoc] at h₁
      exact h₁
  intro ps
  induction ps with
  | nil =>
    intro inps acc acc' h hrun
    cases inps <;> cases hrun <;> exact h
  | cons p ps ih =>
    intro inps acc acc' h hrun
    cases inps with
    | nil =>
      cases hrun
      exact hkeep (p :: ps) acc h
    | cons inp inps =>
      rw [passLoop] at hrun
      cases hlane : passLane ops acc p inp with
      | none =>
        rw [hlane] at hrun
        cases hrun
      | some acc₁ =>
        rw [hlane] at hrun
        exact ih inps acc₁ acc' (hstep acc p ps acc₁ h (passLane_cases ops hlane)) hrun

/-- All `schedule_next_batch` can do: a prefill pass that seats someone, or a
pass that seats no one and then a decode batch or nothing. -/
theorem scheduleNextBatch_cases {s s' : State C H ρ} {inp : PassInput E}
    {b : Option (Bool × List ReqId)} (h : scheduleNextBatch ops s inp = some (s', b)) :
    ∃ seated, (s' = s ∧ seated = [] ∨
        ∃ acc, passLoop ops ⟨s, [], [], []⟩ s.pendingList inp.lanes = some acc ∧
          seated = acc.seated ∧
          s' = { acc.state with pendingList :=
            if inp.rotate then acc.remaining ++ acc.chunked
            else acc.chunked ++ acc.remaining }) ∧
      (seated ≠ [] ∧ b = some (true, seated) ∨
        seated = [] ∧ (b = none ∨ b = some (false, decodeBatch s'))) := by
  have hdecode : ∀ t : State C H ρ,
      (if inp.tryDecode ∧ t.runningReqs ≠ [] then some (t, some (false, decodeBatch t))
        else some (t, none)) = some (s', b) →
      s' = t ∧ (b = none ∨ b = some (false, decodeBatch s')) := by
    intro t ht
    split at ht
    · cases ht
      exact ⟨rfl, Or.inr rfl⟩
    · cases ht
      exact ⟨rfl, Or.inl rfl⟩
  unfold scheduleNextBatch at h
  cases hp : inp.tryPrefill with
  | false =>
    simp only [hp] at h
    obtain ⟨hs, hb⟩ := hdecode s h
    exact ⟨[], Or.inl ⟨hs, rfl⟩, Or.inr ⟨rfl, hb⟩⟩
  | true =>
    simp only [hp, if_true, prefillSchedule] at h
    cases hrun : passLoop ops ⟨s, [], [], []⟩ s.pendingList inp.lanes with
    | none =>
      simp only [hrun] at h
      cases h
    | some acc =>
      simp only [hrun] at h
      cases hseat : acc.seated with
      | nil =>
        simp only [hseat] at h
        obtain ⟨hs, hb⟩ := hdecode { acc.state with pendingList :=
          if inp.rotate then acc.remaining ++ acc.chunked
          else acc.chunked ++ acc.remaining } h
        exact ⟨[], Or.inr ⟨acc, rfl, hseat.symm, hs⟩, Or.inr ⟨rfl, hb⟩⟩
      | cons r rs =>
        simp only [hseat] at h
        cases h
        exact ⟨r :: rs, Or.inr ⟨acc, rfl, hseat.symm, rfl⟩, Or.inl ⟨by simp, rfl⟩⟩

-- ---------------------------------------------------------------------------
-- The object invariant
-- ---------------------------------------------------------------------------

/-- `r` is a chunk of the queued prompt `p`. -/
structure ChunkOf (s : State C H ρ) (p : PendingReq) (r : ReqId) : Prop where
  lt        : r < s.nextReq
  uid       : (s.reqs r).uid = p.uid
  sessionId : (s.reqs r).sessionId = p.sessionId
  mmItems   : (s.reqs r).mmItems = p.mmItems
  isChunked : (s.reqs r).isChunked = true

def ChunkOk (s : State C H ρ) (p : PendingReq) : Prop :=
  ∀ r, p.chunkedReq = some r → ChunkOf s p r

def BatchOk (s : State C H ρ) (rids : List ReqId) : Prop :=
  rids.Nodup ∧ ∀ r ∈ rids, r < s.nextReq

/-- The requests of the batch the loop is working on. -/
def Phase.reqs : Phase → List ReqId
  | .control => []
  | .scheduled none => []
  | .scheduled (some (_, rids)) => rids
  | .launched none => []
  | .launched (some b) => b.reqs

def lastReqs (s : State C H ρ) : List ReqId :=
  match s.lastData with
  | none => []
  | some b => b.reqs

theorem lastReqs_elim (s : State C H ρ) : lastReqs s = s.lastData.elim [] Batch.reqs := by
  rw [lastReqs]
  cases s.lastData <;> rfl

/-- The chunks the queue points to. -/
def chunkRefs (ps : List PendingReq) : List ReqId := ps.filterMap PendingReq.chunkedReq

structure Wf (s : State C H ρ) : Prop where
  chunk        : ∀ p ∈ s.pendingList, ChunkOk s p
  chunkNodup   : (chunkRefs s.pendingList).Nodup
  running      : ∀ r ∈ s.runningReqs, r < s.nextReq ∧ (s.reqs r).isChunked = false
  runningNodup : s.runningReqs.Nodup
  lastData     : BatchOk s (lastReqs s)
  phase        : BatchOk s s.phase.reqs

theorem ChunkOf.of_static {s s' : State C H ρ} {p : PendingReq} {r : ReqId}
    (h : ChunkOf s p r) (hnext : s.nextReq ≤ s'.nextReq)
    (hstatic : (s'.reqs r).static = (s.reqs r).static) : ChunkOf s' p r where
  lt := Nat.lt_of_lt_of_le h.lt hnext
  uid := (Req.uid_of_static hstatic).trans h.uid
  sessionId := (Req.sessionId_of_static hstatic).trans h.sessionId
  mmItems := (Req.mmItems_of_static hstatic).trans h.mmItems
  isChunked := (Req.isChunked_of_static hstatic).trans h.isChunked

theorem BatchOk.mono {s s' : State C H ρ} {rids : List ReqId} (h : BatchOk s rids)
    (hnext : s.nextReq ≤ s'.nextReq) : BatchOk s' rids :=
  ⟨h.1, fun r hr => Nat.lt_of_lt_of_le (h.2 r hr) hnext⟩

theorem BatchOk.nil (s : State C H ρ) : BatchOk s [] :=
  ⟨List.nodup_nil, fun _ h => by cases h⟩

theorem wf_init (cache : C) (dummy : Req ρ) (n : Nat) :
    Wf (State.init cache dummy n : State C H ρ) where
  chunk p h := by cases h
  chunkNodup := List.nodup_nil
  running r h := by cases h
  runningNodup := List.nodup_nil
  lastData := BatchOk.nil _
  phase := BatchOk.nil _

theorem lastReqs_ok {s s' : State C H ρ} (h : BatchOk s (lastReqs s))
    (hnext : s.nextReq ≤ s'.nextReq) (hlast : s'.lastData = s.lastData ∨ s'.lastData = none) :
    BatchOk s' (lastReqs s') := by
  rcases hlast with hlast | hlast
  · have : lastReqs s' = lastReqs s := by rw [lastReqs, lastReqs, hlast]
    rw [this]
    exact h.mono hnext
  · have : lastReqs s' = [] := by rw [lastReqs, hlast]
    rw [this]
    exact BatchOk.nil s'

/-- A step that builds no request object keeps the invariant. -/
theorem Wf.ext {s s' : State C H ρ} (h : Wf s) (he : Ext s s') : Wf s' where
  chunk p hp r hr :=
    (h.chunk p (he.pending.subset hp) r hr).of_static (Nat.le_of_eq he.nextReq.symm)
      (he.static r)
  chunkNodup := (he.pending.filterMap _).nodup h.chunkNodup
  running r hr := by
    obtain ⟨hlt, hc⟩ := h.running r (he.running.subset hr)
    exact ⟨he.nextReq ▸ hlt, (Req.isChunked_of_static (he.static r)).trans hc⟩
  runningNodup := he.running.nodup h.runningNodup
  lastData := lastReqs_ok h.lastData (Nat.le_of_eq he.nextReq.symm) he.lastData
  phase := by
    rw [he.phase]
    exact h.phase.mono (Nat.le_of_eq he.nextReq.symm)

theorem wf_addOneReq {s : State C H ρ} (h : Wf s) (msg : UserMsg) : Wf (addOneReq s msg) where
  chunk p hp r hr := by
    rcases List.mem_append.mp hp with hp | hp
    · exact (h.chunk p hp r hr).of_static (Nat.le_refl _) rfl
    · rw [List.mem_singleton] at hp
      subst hp
      cases hr
  chunkNodup := by
    have : chunkRefs (addOneReq s msg).pendingList = chunkRefs s.pendingList := by
      simp [chunkRefs, addOneReq]
    rw [this]
    exact h.chunkNodup
  running := h.running
  runningNodup := h.runningNodup
  lastData := h.lastData
  phase := h.phase

theorem wf_processOneMsg {s : State C H ρ} (h : Wf s) (now : Time) (env : UserEnv E)
    (m : BackendMsg) : Wf (processOneMsg ops cfg now env s m) := by
  cases m with
  | user msg =>
    rcases processUser_cases ops cfg now env s msg with he | ⟨s₁, msg', he, -, heq⟩
    · exact h.ext he
    · rw [processOneMsg, heq]
      exact wf_addOneReq (h.ext he) msg'
  | abort uid sid => exact h.ext (processAbort_ext ops cfg now s uid sid)
  | closeSession sid requestId => exact h.ext (processClose_ext ops cfg now s sid requestId)

/-- The admission loop's invariant: the objects of the state it started from are
untouched, the ones it built are new, and every chunk entry names its own object. -/
structure PassWf (s₀ : State C H ρ) (acc : PassAcc C H ρ) (rest : List PendingReq) : Prop where
  nextReq   : s₀.nextReq ≤ acc.state.nextReq
  static    : ∀ r < s₀.nextReq, (acc.state.reqs r).static = (s₀.reqs r).static
  running   : acc.state.runningReqs = s₀.runningReqs
  lastData  : acc.state.lastData = s₀.lastData
  seated    : acc.seated.Nodup ∧
                ∀ r ∈ acc.seated, s₀.nextReq ≤ r ∧ r < acc.state.nextReq
  chunked   : ∀ p ∈ acc.chunked, ChunkOk acc.state p
  chunkRefs : (chunkRefs acc.chunked).Nodup ∧
                ∀ r ∈ chunkRefs acc.chunked, s₀.nextReq ≤ r ∧ r < acc.state.nextReq
  remaining : (acc.remaining ++ rest).Sublist s₀.pendingList

theorem static_of_core {r r' : Req ρ} (h : r'.core = r.core) : r'.static = r.static := by
  have hc : ∀ x : Req ρ, x.static = x.core.static := fun _ => rfl
  rw [hc, hc, h]

theorem canDecode_of_core {r r' : Req ρ} (h : r'.core = r.core) :
    r'.canDecode = r.canDecode := by
  have hc : ∀ x : Req ρ, x.canDecode = x.core.canDecode := fun _ => rfl
  rw [hc, hc, h]

theorem passWf_step {s₀ : State C H ρ} {acc acc' : PassAcc C H ρ} {p : PendingReq}
    {ps : List PendingReq} (h : PassWf s₀ acc (p :: ps)) (hs : LaneStep acc p acc') :
    PassWf s₀ acc' ps := by
  cases hs with
  | kept s hs =>
    have hst : ∀ r, (s.reqs r).static = (acc.state.reqs r).static :=
      fun r => static_of_core (hs.core r)
    obtain ⟨cache, reqs, rfl, -⟩ := hs
    refine ⟨h.nextReq, fun r hr => (hst r).trans (h.static r hr), h.running, h.lastData,
      h.seated, fun q hq r hr => (h.chunked q hq r hr).of_static (Nat.le_refl _) (hst r),
      h.chunkRefs, ?_⟩
    rw [List.append_assoc]
    exact h.remaining
  | seated s hs cache cachedLen chunkEnd tableIdx tableFree res hsrc hlo hhi =>
    have hst : ∀ r, (s.reqs r).static = (acc.state.reqs r).static :=
      fun r => static_of_core (hs.core r)
    obtain ⟨cache', reqs, rfl, -⟩ := hs
    have hst' : ∀ r < acc.state.nextReq,
        (Function.update reqs acc.state.nextReq
          (newReq p cachedLen chunkEnd tableIdx res) r).static = (acc.state.reqs r).static := by
      intro r hr
      rw [Function.update_of_ne (Nat.ne_of_lt hr)]
      exact hst r
    -- a list of built objects stays fresh and distinct when the next one joins it
    have hfresh : ∀ l : List ReqId,
        (l.Nodup ∧ ∀ r ∈ l, s₀.nextReq ≤ r ∧ r < acc.state.nextReq) →
        (l ++ [acc.state.nextReq]).Nodup ∧ ∀ r ∈ l ++ [acc.state.nextReq],
          s₀.nextReq ≤ r ∧ r < acc.state.nextReq + 1 := by
      rintro l ⟨hnd, hlt⟩
      constructor
      · refine List.Nodup.append hnd (List.nodup_singleton _) ?_
        intro r hr hr'
        rw [List.mem_singleton] at hr'
        exact Nat.ne_of_lt (hlt r hr).2 hr'
      · intro r hr
        rcases List.mem_append.mp hr with hr | hr
        · exact ⟨(hlt r hr).1, Nat.lt_succ_of_lt (hlt r hr).2⟩
        · rw [List.mem_singleton] at hr
          subst hr
          exact ⟨h.nextReq, Nat.lt_succ_self _⟩
    refine ⟨Nat.le_succ_of_le h.nextReq, ?_, h.running, h.lastData, hfresh _ h.seated, ?_, ?_, ?_⟩
    · intro r hr
      exact (hst' r (Nat.lt_of_lt_of_le hr h.nextReq)).trans (h.static r hr)
    · have hold : ∀ q ∈ acc.chunked, ∀ r, q.chunkedReq = some r →
          ChunkOf ({ acc.state with
            cache := cache
            tableFree := tableFree
            nextReq := acc.state.nextReq + 1
            reqs := Function.update reqs acc.state.nextReq
              (newReq p cachedLen chunkEnd tableIdx res) } : State C H ρ) q r := by
        intro q hq r hr
        have hc := h.chunked q hq r hr
        exact hc.of_static (Nat.le_succ _) (hst' r hc.lt)
      intro q hq
      dsimp only at hq
      split at hq
      · rename_i hpart
        rcases List.mem_append.mp hq with hq | hq
        · exact hold q hq
        · rw [List.mem_singleton] at hq
          subst hq
          intro r hr
          cases hr
          have hself : Function.update reqs acc.state.nextReq
              (newReq p cachedLen chunkEnd tableIdx res) acc.state.nextReq =
              newReq p cachedLen chunkEnd tableIdx res := Function.update_self ..
          refine ⟨Nat.lt_succ_self _, ?_, ?_, ?_, ?_⟩
          · dsimp only
            rw [hself]
            rfl
          · dsimp only
            rw [hself]
            rfl
          · dsimp only
            rw [hself]
            rfl
          · dsimp only
            rw [hself]
            simp [newReq, hpart]
      · exact hold q hq
    · dsimp only
      split
      · have hrefs : Scheduler.chunkRefs
            (acc.chunked ++ [{ p with chunkedReq := some acc.state.nextReq }]) =
            Scheduler.chunkRefs acc.chunked ++ [acc.state.nextReq] := by
          simp [Scheduler.chunkRefs]
        rw [hrefs]
        exact hfresh _ h.chunkRefs
      · exact ⟨h.chunkRefs.1, fun r hr =>
          ⟨(h.chunkRefs.2 r hr).1, Nat.lt_succ_of_lt (h.chunkRefs.2 r hr).2⟩⟩
    · exact (List.Sublist.append_left (List.sublist_cons_self p ps) _).trans h.remaining

theorem passWf_init (s : State C H ρ) :
    PassWf s ⟨s, [], [], []⟩ s.pendingList where
  nextReq := Nat.le_refl _
  static _ _ := rfl
  running := rfl
  lastData := rfl
  seated := ⟨List.nodup_nil, by simp⟩
  chunked := by simp
  chunkRefs := ⟨List.nodup_nil, by simp [Scheduler.chunkRefs]⟩
  remaining := List.Sublist.refl _

/-- The pass as a whole: what it seated is new, what was there is untouched. -/
structure PassResult (s₀ s : State C H ρ) (seated : List ReqId) : Prop where
  nextReq    : s₀.nextReq ≤ s.nextReq
  static     : ∀ r < s₀.nextReq, (s.reqs r).static = (s₀.reqs r).static
  running    : s.runningReqs = s₀.runningReqs
  lastData   : s.lastData = s₀.lastData
  seated     : seated.Nodup ∧ ∀ r ∈ seated, s₀.nextReq ≤ r ∧ r < s.nextReq
  chunk      : ∀ p ∈ s.pendingList, ChunkOk s p
  chunkNodup : (chunkRefs s.pendingList).Nodup

theorem passResult_of_loop {s : State C H ρ} (h : Wf s) {lanes : List (LaneInput E)}
    {acc : PassAcc C H ρ} (hloop : passLoop ops ⟨s, [], [], []⟩ s.pendingList lanes = some acc)
    (rotate : Bool) :
    PassResult s { acc.state with pendingList :=
      if rotate then acc.remaining ++ acc.chunked else acc.chunked ++ acc.remaining }
      acc.seated := by
  have hp : PassWf s acc [] := passLoop_induction ops (fun _ _ _ _ => passWf_step) _ _ _ _
    (passWf_init s) hloop
  have hsub : acc.remaining.Sublist s.pendingList := by
    have := hp.remaining
    rwa [List.append_nil] at this
  -- the chunks of kept prompts are older than the ones the pass built
  have hdisj : List.Disjoint (chunkRefs acc.remaining) (chunkRefs acc.chunked) := by
    intro r hr hr'
    obtain ⟨p, hpm, hpr⟩ := List.mem_filterMap.mp hr
    have hlt := (h.chunk p (hsub.subset hpm) r hpr).lt
    exact Nat.not_le_of_lt hlt (hp.chunkRefs.2 r hr').1
  have hremNodup : (chunkRefs acc.remaining).Nodup := (hsub.filterMap _).nodup h.chunkNodup
  refine ⟨hp.nextReq, hp.static, hp.running, hp.lastData, hp.seated, ?_, ?_⟩
  · intro p hmem
    have hcases : p ∈ acc.chunked ∨ p ∈ acc.remaining := by
      dsimp only at hmem
      split at hmem
      · exact (List.mem_append.mp hmem).symm
      · exact List.mem_append.mp hmem
    rcases hcases with hmem | hmem
    · intro r hr
      have hc := hp.chunked p hmem r hr
      exact ⟨hc.lt, hc.uid, hc.sessionId, hc.mmItems, hc.isChunked⟩
    · intro r hr
      have hc := h.chunk p (hsub.subset hmem) r hr
      exact hc.of_static hp.nextReq (hp.static r hc.lt)
  · dsimp only
    split
    · rw [chunkRefs, List.filterMap_append]
      exact List.Nodup.append hremNodup hp.chunkRefs.1 hdisj
    · rw [chunkRefs, List.filterMap_append]
      exact List.Nodup.append hp.chunkRefs.1 hremNodup fun r h₁ h₂ => hdisj h₂ h₁

theorem decodeBatch_perm (s : State C H ρ) : (decodeBatch s).Perm s.runningReqs :=
  List.perm_insertionSort _ _

/-- What a pass leaves behind, for the state and for the batch it chose. -/
theorem wf_scheduleNextBatch {s s' : State C H ρ} (h : Wf s) {inp : PassInput E}
    {b : Option (Bool × List ReqId)} (hrun : scheduleNextBatch ops s inp = some (s', b)) :
    Wf { s' with phase := .scheduled b } := by
  obtain ⟨seated, hs', hb⟩ := scheduleNextBatch_cases ops hrun
  have hpass : PassResult s s' seated := by
    rcases hs' with ⟨rfl, rfl⟩ | ⟨acc, hloop, rfl, rfl⟩
    · exact ⟨Nat.le_refl _, fun _ _ => rfl, rfl, rfl, ⟨List.nodup_nil, by simp⟩, h.chunk,
        h.chunkNodup⟩
    · exact passResult_of_loop ops h hloop inp.rotate
  have hrunning : ∀ r ∈ s'.runningReqs, r < s'.nextReq ∧ (s'.reqs r).isChunked = false := by
    intro r hr
    rw [hpass.running] at hr
    obtain ⟨hlt, hc⟩ := h.running r hr
    exact ⟨Nat.lt_of_lt_of_le hlt hpass.nextReq,
      (Req.isChunked_of_static (hpass.static r hlt)).trans hc⟩
  have hnodup : s'.runningReqs.Nodup := hpass.running ▸ h.runningNodup
  refine ⟨fun p hp r hr => ?_, hpass.chunkNodup, hrunning, hnodup, ?_, ?_⟩
  · have hc := hpass.chunk p hp r hr
    exact ⟨hc.lt, hc.uid, hc.sessionId, hc.mmItems, hc.isChunked⟩
  · exact lastReqs_ok h.lastData hpass.nextReq (Or.inl hpass.lastData)
  · rcases hb with ⟨-, rfl⟩ | ⟨-, rfl | rfl⟩
    · exact ⟨hpass.seated.1, fun r hr => (hpass.seated.2 r hr).2⟩
    · exact BatchOk.nil _
    · have hperm := decodeBatch_perm s'
      exact ⟨hperm.nodup_iff.mpr hnodup, fun r hr => (hrunning r (hperm.mem_iff.mp hr)).1⟩

/-- The forward puts the whole requests of its batch into the running set. -/
theorem wf_forwardBatch {s : State C H ρ} (h : Wf s) {isPrefill : Bool} {rids : List ReqId}
    (hphase : s.phase = .scheduled (some (isPrefill, rids))) :
    Wf { (forwardBatch ops cfg s isPrefill rids).1 with
      phase := .launched (some (forwardBatch ops cfg s isPrefill rids).2) } := by
  have hb : BatchOk s rids := by
    have := h.phase
    rw [hphase] at this
    exact this
  obtain ⟨cache, reqs, heq, hin, hout, hrows⟩ := forwardBatch_cases ops cfg s isPrefill rids hb.1
  have hst : ∀ r, (reqs r).static = (s.reqs r).static := by
    intro r
    by_cases hr : r ∈ rids
    · exact (static_of_core (hin r hr)).trans rfl
    · rw [hout r hr]
  rw [heq, hrows]
  refine ⟨?_, h.chunkNodup, ?_, ?_, h.lastData, ?_⟩
  · intro p hp r hr
    exact (h.chunk p hp r hr).of_static (Nat.le_refl _) (hst r)
  · intro r hr
    obtain ⟨hmem, hcan⟩ := (mem_filterReqs _ rids r).mp hr
    have hc : (reqs r).isChunked = false := by
      simp only [Req.canDecode, Bool.and_eq_true, Bool.not_eq_true'] at hcan
      exact hcan.1
    rcases hmem with hmem | hmem
    · exact ⟨(h.running r hmem).1, hc⟩
    · exact ⟨hb.2 r hmem, hc⟩
  · exact (nodup_foldl_insert rids _ h.runningNodup).filter _
  · have hfst : (rids.map fun rid => (rid, sampledToken cfg (s.reqs rid))).map Prod.fst =
        rids := by
      rw [List.map_map]
      exact List.map_id _
    show BatchOk _ ((rids.map fun rid => (rid, sampledToken cfg (s.reqs rid))).map Prod.fst)
    rw [hfst]
    exact hb

/-- Changing the phase and the batch in flight keeps the invariant when what
they hold is sound. -/
theorem Wf.rephase {s : State C H ρ} (h : Wf s) (phase : Phase) (last : Option Batch)
    (hphase : BatchOk s phase.reqs) (hlast : BatchOk s (last.elim [] Batch.reqs)) :
    Wf { s with phase := phase, lastData := last } where
  chunk p hp r hr := (h.chunk p hp r hr).of_static (Nat.le_refl _) rfl
  chunkNodup := h.chunkNodup
  running := h.running
  runningNodup := h.runningNodup
  lastData := by
    cases last with
    | none => exact BatchOk.nil _
    | some b => exact hlast
  phase := hphase

-- ---------------------------------------------------------------------------
-- The steps of the loops
-- ---------------------------------------------------------------------------

/-- All a step of either loop can be, with the phase it needs. -/
inductive LoopStep (overlap : Bool) (s : State C H ρ) : Step E → State C H ρ → Prop
  | msg (now : Time) (m : BackendMsg) (env : UserEnv E) (hphase : s.phase = .control) :
      LoopStep overlap s (.msg now m env) (processOneMsg ops cfg now env s m)
  | expire (now : Time) (hphase : s.phase = .control) :
      LoopStep overlap s (.expire now) (expireSessions ops cfg now s)
  | service (now : Time) (e : ServiceEvent E) (hphase : s.phase = .control) :
      LoopStep overlap s (.service now e) (serve ops now s e)
  | drainInflight (now : Time) (hphase : ∀ b, s.phase ≠ .launched b) :
      LoopStep overlap s (.drainInflight now) (drainInflight ops cfg now s)
  | schedule (inp : PassInput E) (hphase : s.phase = .control) (t : State C H ρ)
      (b : Option (Bool × List ReqId)) (hrun : scheduleNextBatch ops s inp = some (t, b)) :
      LoopStep overlap s (.schedule inp) { t with phase := .scheduled b }
  | forwardNone (hphase : s.phase = .scheduled none) :
      LoopStep overlap s .forward { s with phase := .launched none }
  | forward (isPrefill : Bool) (rids : List ReqId)
      (hphase : s.phase = .scheduled (some (isPrefill, rids))) :
      LoopStep overlap s .forward { (forwardBatch ops cfg s isPrefill rids).1 with
        phase := .launched (some (forwardBatch ops cfg s isPrefill rids).2) }
  | drain (now : Time) (b : Option Batch) (hphase : s.phase = .launched b) :
      LoopStep overlap s (.drain now)
        { flushAbortAcks (processLastData ops cfg now s (if overlap then s.lastData else b)) with
          phase := .control
          lastData := if overlap then b else none }

theorem step_cases {overlap : Bool} {s s' : State C H ρ} {a : Step E}
    (h : step ops cfg overlap s a = some s') : LoopStep ops cfg overlap s a s' := by
  cases a with
  | msg now m env =>
    simp only [step] at h
    split at h
    · cases h
      exact .msg now m env ‹_›
    · cases h
  | expire now =>
    simp only [step] at h
    split at h
    · cases h
      exact .expire now ‹_›
    · cases h
  | service now e =>
    simp only [step] at h
    split at h
    · cases h
      exact .service now e ‹_›
    · cases h
  | drainInflight now =>
    simp only [step] at h
    split at h
    · cases h
    · rename_i hphase
      cases h
      exact .drainInflight now fun b hb => hphase b hb
  | schedule inp =>
    simp only [step] at h
    split at h
    · obtain ⟨⟨t, b⟩, hrun, rfl⟩ := Option.map_eq_some_iff.mp h
      exact .schedule inp ‹_› t b hrun
    · cases h
  | forward =>
    simp only [step] at h
    split at h
    · cases h
      exact .forwardNone ‹_›
    · cases h
      exact .forward _ _ ‹_›
    · cases h
  | drain now =>
    simp only [step] at h
    split at h
    · cases h
      exact .drain now _ ‹_›
    · cases h

theorem Wf.launched {s : State C H ρ} (h : Wf s) {b : Option Batch}
    (hphase : s.phase = .launched b) : BatchOk s (b.elim [] Batch.reqs) := by
  have hb := h.phase
  rw [hphase] at hb
  cases b with
  | none => exact BatchOk.nil s
  | some b => exact hb

theorem wf_step {overlap : Bool} {s s' : State C H ρ} {a : Step E} (h : Wf s)
    (hstep : step ops cfg overlap s a = some s') : Wf s' := by
  cases step_cases ops cfg hstep with
  | msg now m env hphase => exact wf_processOneMsg ops cfg h now env m
  | expire now hphase => exact h.ext (expireSessions_ext ops cfg now s)
  | service now e hphase => exact h.ext (serve_ext ops now s e)
  | drainInflight now hphase => exact h.ext (drainInflight_ext ops cfg now s)
  | schedule inp hphase t b hrun => exact wf_scheduleNextBatch ops h hrun
  | forwardNone hphase =>
    exact h.rephase (.launched none) s.lastData (BatchOk.nil s) (lastReqs_elim s ▸ h.lastData)
  | forward isPrefill rids hphase => exact wf_forwardBatch ops cfg h hphase
  | drain now b hphase =>
    have he := (processLastData_ext ops cfg now s (if overlap then s.lastData else b)).trans
      (flushAbortAcks_ext _)
    refine (h.ext he).rephase .control (if overlap then b else none) (BatchOk.nil _) ?_
    cases overlap with
    | false => exact BatchOk.nil _
    | true => exact (h.launched hphase).mono (Nat.le_of_eq he.nextReq.symm)

/-- The object invariant holds in every state either loop can reach. -/
theorem reach_wf {overlap : Bool} {ok : State C H ρ → Step E → Prop} {cache : C}
    {dummy : Req ρ} {n : Nat} {s : State C H ρ}
    (hs : Lib.Reach (step ops cfg overlap) ok (State.init cache dummy n) s) : Wf s :=
  hs.invariant (wf_init cache dummy n) fun _ _ _ h _ hstep => wf_step ops cfg h hstep

end FreeToken.Scheduler
