import FreeToken.Scheduler.BusyLease
import FreeToken.Scheduler.StreamInvariant

/-!
# Overlap scheduling and the delivered stream

`overlap_loop` drains a batch after the next one was forwarded, and the drain's
length test reads the length that forward advanced. A turn whose last budgeted
token is in the batch launched behind therefore ends one token early, and a
request that finishes in an early drain (growing KV) after the next batch was
chosen is forwarded once more. `StreamStepOk` is the condition that neither
happens; `normal_loop` always meets it.

* `delivered_of_reach`      — in every guarded run of either loop, every client
  was sent a prefix of `expected`, and all of it once its request is gone.
* `overlap_streams_agree`   — so the two loops deliver the same streams.
* `overlap_ends_turn_early` — a run of `overlap_loop` without the guard.
-/

namespace FreeToken.Scheduler

variable {C H ρ E : Type} (ops : CacheOps C H ρ E) (cfg : Config)

-- ---------------------------------------------------------------------------
-- The condition on the steps
-- ---------------------------------------------------------------------------

def lastRows (s : State C H ρ) : List (ReqId × Token) := s.lastData.elim [] Batch.rows

def launchedRows (s : State C H ρ) : List (ReqId × Token) :=
  match s.phase with
  | .launched (some b) => b.rows
  | _ => []

/-- No aborts, no closes, and prompts with a fresh uid and a budget; at a drain
of `overlap_loop` no request spends its budget in the batch launched behind,
unless its token stops it; at an early drain no request of the chosen batch finishes. -/
def StreamStepOk (overlap : Bool) (s : State C H ρ) : Step E → Prop
  | .msg _ (.user msg) _ =>
    msg.uid ∉ s.admitted.map UserMsg.uid ∧ 0 < msg.samplingParams.maxTokens
  | .msg _ (.abort _ _) _ => False
  | .msg _ (.closeSession _ _) _ => False
  | .drainInflight _ => ∀ row ∈ lastRows s, row.1 ∈ scheduledReqs s →
      (s.reqs row.1).canDecode = true ∧
        hitStop cfg ((s.reqs row.1).appendHost row.2) row.2 = false
  | .drain _ => overlap = true → ∀ row ∈ lastRows s, row.1 ∈ (launchedRows s).map Prod.fst →
      (s.reqs row.1).canDecode = true ∨
        hitStop cfg ((s.reqs row.1).appendHost row.2) row.2 = true
  | _ => True

instance (overlap : Bool) (s : State C H ρ) (a : Step E) :
    Decidable (StreamStepOk cfg overlap s a) :=
  match a with
  | .msg _ (.user msg) _ => inferInstanceAs
      (Decidable (msg.uid ∉ s.admitted.map UserMsg.uid ∧ 0 < msg.samplingParams.maxTokens))
  | .msg _ (.abort _ _) _ => inferInstanceAs (Decidable False)
  | .msg _ (.closeSession _ _) _ => inferInstanceAs (Decidable False)
  | .drainInflight _ => inferInstanceAs (Decidable (∀ row ∈ lastRows s,
      row.1 ∈ scheduledReqs s → (s.reqs row.1).canDecode = true ∧
        hitStop cfg ((s.reqs row.1).appendHost row.2) row.2 = false))
  | .drain _ => inferInstanceAs (Decidable (overlap = true → ∀ row ∈ lastRows s,
      row.1 ∈ (launchedRows s).map Prod.fst → (s.reqs row.1).canDecode = true ∨
        hitStop cfg ((s.reqs row.1).appendHost row.2) row.2 = true))
  | .expire _ => inferInstanceAs (Decidable True)
  | .service _ _ => inferInstanceAs (Decidable True)
  | .schedule _ => inferInstanceAs (Decidable True)
  | .forward => inferInstanceAs (Decidable True)

/-- The stream invariant at a state between two steps. -/
def TopStream (s : State C H ρ) : Prop :=
  StreamInv cfg (scheduledReqs s) (lastRows s) (launchedRows s) s.finishedReqs [] (stream s) s

theorem launchedRows_control {s : State C H ρ} (h : s.phase = .control) : launchedRows s = [] := by
  rw [launchedRows, h]

theorem scheduledReqs_control {s : State C H ρ} (h : s.phase = .control) :
    scheduledReqs s = [] := by
  rw [scheduledReqs, h]

theorem lastRows_reqs (s : State C H ρ) : (lastRows s).map Prod.fst = lastReqs s := by
  rw [lastRows, lastReqs]
  cases s.lastData <;> rfl

theorem launchedRows_reqs (s : State C H ρ) :
    (launchedRows s).map Prod.fst = launchedReqs s := by
  unfold launchedRows launchedReqs
  cases s.phase with
  | control => rfl
  | scheduled b => rfl
  | launched b => cases b <;> rfl

-- ---------------------------------------------------------------------------
-- Steps that deliver nothing
-- ---------------------------------------------------------------------------

/-- `s'` differs from `s` in nothing a client's stream depends on. -/
structure Quiet (s s' : State C H ρ) : Prop where
  admitted : s'.admitted = s.admitted
  reqs     : s'.reqs = s.reqs
  nextReq  : s'.nextReq = s.nextReq
  pending  : s'.pendingList = s.pendingList
  running  : s'.runningReqs = s.runningReqs
  finished : s'.finishedReqs = s.finishedReqs
  lastData : s'.lastData = s.lastData
  phase    : s'.phase = s.phase
  stream   : ∀ u, stream s' u = stream s u

namespace Quiet

theorem refl (s : State C H ρ) : Quiet s s :=
  ⟨rfl, rfl, rfl, rfl, rfl, rfl, rfl, rfl, fun _ => rfl⟩

theorem trans {a b c : State C H ρ} (h₁ : Quiet a b) (h₂ : Quiet b c) : Quiet a c where
  admitted := h₂.admitted.trans h₁.admitted
  reqs := h₂.reqs.trans h₁.reqs
  nextReq := h₂.nextReq.trans h₁.nextReq
  pending := h₂.pending.trans h₁.pending
  running := h₂.running.trans h₁.running
  finished := h₂.finished.trans h₁.finished
  lastData := h₂.lastData.trans h₁.lastData
  phase := h₂.phase.trans h₁.phase
  stream u := (h₂.stream u).trans (h₁.stream u)

end Quiet

variable {cfg} in
theorem TopStream.quiet {s s' : State C H ρ} (h : TopStream cfg s) (hq : Quiet s s') :
    TopStream cfg s' := by
  have hl : lastRows s' = lastRows s := by rw [lastRows, lastRows, hq.lastData]
  have hp : launchedRows s' = launchedRows s := by rw [launchedRows, launchedRows, hq.phase]
  rw [TopStream, scheduledReqs_congr hq.phase, hl, hp, hq.finished]
  exact StreamInv.congr h hq.admitted hq.reqs hq.nextReq hq.pending hq.running hq.stream

/-- Replies that are not token messages. -/
theorem stream_send {s : State C H ρ} {rs : List Reply} (h : ∀ r ∈ rs, ∀ u, deliveredTo u r = none)
    (u : Uid) : stream (s.send rs) u = stream s u := by
  show (s.outbox ++ rs).filterMap (deliveredTo u) = s.outbox.filterMap (deliveredTo u)
  rw [List.filterMap_append, List.filterMap_eq_nil_iff.mpr fun r hr => h r hr u, List.append_nil]

theorem quiet_error (s : State C H ρ) (u : Uid) (e : RequestError) :
    Quiet s (s.send [.error u e]) :=
  ⟨rfl, rfl, rfl, rfl, rfl, rfl, rfl, rfl, stream_send fun r hr v => by
    rw [List.mem_singleton] at hr
    subst hr
    rfl⟩

theorem quiet_serve (now : Time) (s : State C H ρ) (e : ServiceEvent E) :
    Quiet s (serve ops now s e) := by
  obtain ⟨-, cache, sessions, heq⟩ := serve_frame ops now s e
  rw [heq]
  exact ⟨rfl, rfl, rfl, rfl, rfl, rfl, rfl, rfl, fun _ => rfl⟩

theorem quiet_serves (now : Time) (es : List (ServiceEvent E)) (s : State C H ρ) :
    Quiet s (es.foldl (serve ops now) s) := by
  induction es generalizing s with
  | nil => exact Quiet.refl s
  | cons e es ih => exact (quiet_serve ops now s e).trans (ih _)

theorem quiet_bindSession (now : Time) (env : UserEnv E) (s : State C H ρ) (msg : UserMsg) :
    Quiet s (bindSession ops now env s msg).1 := by
  have halias : ∀ sid bound, Quiet s (noteAlias s msg sid bound) := by
    intro sid bound
    obtain ⟨aliases, heq⟩ := noteAlias_eq s msg sid bound
    rw [heq]
    exact ⟨rfl, rfl, rfl, rfl, rfl, rfl, rfl, rfl, fun _ => rfl⟩
  unfold bindSession
  split
  · exact Quiet.refl s
  · split
    · exact quiet_error s _ _
    · dsimp only
      split
      · exact (halias _ _).trans (quiet_error _ _ _)
      · exact ((halias _ _).trans (quiet_serves ops now _ _)).trans
          ⟨rfl, rfl, rfl, rfl, rfl, rfl, rfl, rfl, fun _ => rfl⟩

theorem quiet_idleLease (now : Time) (s : State C H ρ) (sid : SessionId) :
    Quiet s (idleLease now s sid) := by
  unfold idleLease
  split
  · exact Quiet.refl s
  · exact ⟨rfl, rfl, rfl, rfl, rfl, rfl, rfl, rfl, fun _ => rfl⟩

theorem quiet_flushAbortAcks (s : State C H ρ) : Quiet s (flushAbortAcks s) := by
  refine ⟨rfl, rfl, rfl, rfl, rfl, rfl, rfl, rfl, fun u => ?_⟩
  have herror : ∀ (us : List Uid),
      (us.map fun v => Reply.error v .aborted).filterMap (deliveredTo u) = [] := by
    intro us
    rw [List.filterMap_eq_nil_iff]
    intro r hr
    obtain ⟨v, -, rfl⟩ := List.mem_map.mp hr
    rfl
  have hclosed : ∀ (us : List Uid), (us.filterMap fun v =>
      (s.pendingSessionCloseAcks v).map fun x => Reply.sessionClosed x.2 x.1 .closed).filterMap
        (deliveredTo u) = [] := by
    intro us
    rw [List.filterMap_eq_nil_iff]
    intro r hr
    obtain ⟨v, -, hv⟩ := List.mem_filterMap.mp hr
    obtain ⟨x, -, rfl⟩ := Option.map_eq_some_iff.mp hv
    rfl
  show (s.outbox ++ _ ++ _).filterMap (deliveredTo u) = s.outbox.filterMap (deliveredTo u)
  rw [List.filterMap_append, List.filterMap_append, herror, hclosed, List.append_nil,
    List.append_nil]

/-- The leases that expire are idle, so closing them touches no request. -/
theorem quiet_expireSessions (now : Time) (s : State C H ρ) :
    Quiet s (expireSessions ops cfg now s) := by
  have hidle : ∀ sid ∈ expiredSessions now s, ∀ l, s.sessions sid = some l →
      l.activeUid = none := by
    intro sid hsid l hl
    have htest := (List.mem_filter.mp hsid).2
    rw [hl] at htest
    simp only [Bool.and_eq_true, Option.isNone_iff_eq_none] at htest
    exact htest.1.1
  unfold expireSessions
  generalize expiredSessions now s = sids at hidle
  induction sids generalizing s with
  | nil => exact Quiet.refl s
  | cons sid sids ih =>
    have hclose : Quiet s (closeSession ops cfg now s sid) := by
      unfold closeSession
      split
      · exact Quiet.refl s
      · rename_i l hl
        rw [hidle sid (List.mem_cons_self ..) l hl]
        exact ⟨rfl, rfl, rfl, rfl, rfl, rfl, rfl, rfl, fun _ => rfl⟩
    refine hclose.trans (ih _ fun sid' hmem l hl => ?_)
    rw [closeSession_sessions] at hl
    by_cases hs : sid' = sid
    · subst hs
      rw [Function.update_self] at hl
      cases hl
    · rw [Function.update_of_ne hs] at hl
      exact hidle sid' (List.mem_cons_of_mem _ hmem) l hl

-- ---------------------------------------------------------------------------
-- Early drains and prompts
-- ---------------------------------------------------------------------------

theorem drainRowOk_nil {s : State C H ρ} {row : ReqId × Token} : DrainRowOk cfg s [] [] row :=
  ⟨nofun, nofun⟩

variable {cfg} in
/-- An early drain. Before the next batch is chosen it needs no condition. -/
theorem topStream_drainInflight {s : State C H ρ} (now : Time) (hwf : Wf s)
    (h : TopStream cfg s) (hlaunched : launchedRows s = [])
    (hok : ∀ row ∈ lastRows s, row.1 ∈ scheduledReqs s →
      (s.reqs row.1).canDecode = true ∧
        hitStop cfg ((s.reqs row.1).appendHost row.2) row.2 = false) :
    TopStream cfg (drainInflight ops cfg now s) := by
  have hb : BatchOk s (s.lastData.elim [] Batch.reqs) := lastReqs_elim s ▸ hwf.lastData
  rw [TopStream, hlaunched] at h
  have hrows : ∀ row ∈ s.lastData.elim [] Batch.rows,
      DrainRowOk cfg s (scheduledReqs s) [] row := by
    intro row hrow
    refine ⟨nofun, fun hsched => ?_⟩
    obtain ⟨hcan, hstop⟩ := hok row hrow hsched
    have hcan' : ((s.reqs row.1).appendHost row.2).canDecode = (s.reqs row.1).canDecode := rfl
    show (!((s.reqs row.1).appendHost row.2).canDecode || hitStop cfg _ row.2) = false
    rw [hcan', hcan, hstop]
    rfl
  have hd := streamInv_processLastData ops cfg now hwf s.lastData hb h hrows
  have hq := quiet_flushAbortAcks (processLastData ops cfg now s s.lastData)
  have hphase : (drainInflight ops cfg now s).phase = s.phase :=
    (drainInflight_ext ops cfg now s).phase
  have hlaunched' : launchedRows (drainInflight ops cfg now s) = [] := by
    rw [launchedRows, hphase]
    exact hlaunched
  rw [TopStream, scheduledReqs_congr hphase, hlaunched']
  exact hd.congr rfl rfl rfl rfl rfl hq.stream

variable {cfg} in
/-- A prompt with a fresh uid joins the queue. -/
theorem topStream_addOneReq {s : State C H ρ} {msg : UserMsg} (h : TopStream cfg s)
    (hfresh : msg.uid ∉ s.admitted.map UserMsg.uid) (hpos : 0 < msg.samplingParams.maxTokens) :
    TopStream cfg (addOneReq s msg) := by
  -- nothing that waits or runs is of the new uid
  have hpend : ∀ p ∈ s.pendingList, p.uid ≠ msg.uid := by
    intro p hp heq
    obtain ⟨m, hm, hq, -⟩ := h.pending p hp
    exact hfresh (heq ▸ hq.uid ▸ List.mem_map_of_mem hm)
  have hserved : ∀ r < s.nextReq, (s.reqs r).isChunked = false → (s.reqs r).uid ≠ msg.uid :=
    fun r hr hc heq => hfresh (heq ▸ (h.serves r hr hc).uid)
  have hmem : ∀ m ∈ s.admitted, m ∈ (addOneReq s msg).admitted :=
    fun m hm => List.mem_append_left _ hm
  refine ⟨?_, h.objects, ?_, ?_, ?_, ?_, h.unique, ?_, ?_, h.skipped, h.later, h.ended,
    h.running, h.sched⟩
  · constructor
    · show ((s.admitted ++ [msg]).map UserMsg.uid).Nodup
      rw [List.map_append]
      exact List.nodup_append_comm.mp (List.nodup_cons.mpr ⟨hfresh, h.admitted.1⟩)
    · intro m hm
      rcases List.mem_append.mp hm with hm | hm
      · exact h.admitted.2 m hm
      · rw [List.mem_singleton] at hm
        exact hm ▸ hpos
  · intro p hp
    rcases List.mem_append.mp hp with hp | hp
    · obtain ⟨m, hm, hq, hd⟩ := h.pending p hp
      exact ⟨m, hmem m hm, hq, hd⟩
    · rw [List.mem_singleton] at hp
      subst hp
      exact ⟨msg, List.mem_append_right _ (List.mem_singleton_self _), ⟨rfl, rfl, rfl⟩,
        h.silent msg.uid hfresh⟩
  · show ((s.pendingList ++ [_]).map PendingReq.uid).Nodup
    rw [List.map_append]
    refine List.nodup_append_comm.mp (List.nodup_cons.mpr ⟨fun hm => ?_, h.single⟩)
    obtain ⟨p, hp, hpu⟩ := List.mem_map.mp hm
    exact hpend p hp hpu
  · intro r hr hc
    exact (h.serves r hr hc).congr hmem rfl rfl rfl id Or.inr id
  · intro r hr hc p hp
    rcases List.mem_append.mp hp with hp | hp
    · exact h.apart r hr hc p hp
    · rw [List.mem_singleton] at hp
      subst hp
      exact (hserved r hr hc).symm
  · intro m hm
    rcases List.mem_append.mp hm with hm | hm
    · rcases h.covered m hm with ⟨p, hp, hu⟩ | hr
      · exact Or.inl ⟨p, List.mem_append_left _ hp, hu⟩
      · exact Or.inr hr
    · rw [List.mem_singleton] at hm
      subst hm
      exact Or.inl ⟨_, List.mem_append_right _ (List.mem_singleton_self _), rfl⟩
  · intro u hu
    refine h.silent u fun hm => hu ?_
    show u ∈ (s.admitted ++ [msg]).map UserMsg.uid
    rw [List.map_append]
    exact List.mem_append_left _ hm

theorem bindSession_msg (now : Time) (env : UserEnv E) {s : State C H ρ} {msg m : UserMsg}
    (h : (bindSession ops now env s msg).2 = some m) :
    m.uid = msg.uid ∧ m.samplingParams = msg.samplingParams := by
  unfold bindSession at h
  split at h
  · cases h
    exact ⟨rfl, rfl⟩
  · split at h
    · cases h
    · dsimp only at h
      split at h
      · cases h
      · cases h
        exact ⟨rfl, rfl⟩

variable {cfg} in
theorem topStream_restoreSession {s : State C H ρ} (now : Time) (env : UserEnv E)
    (hwf : Wf s) (h : TopStream cfg s) (hcontrol : s.phase = .control) (msg : UserMsg) :
    TopStream cfg (restoreSession ops cfg now env s msg) := by
  have hdrain : ∀ b : Bool, TopStream cfg (if b then drainInflight ops cfg now s else s) := by
    intro b
    cases b with
    | false => exact h
    | true =>
      refine topStream_drainInflight ops now hwf h (launchedRows_control hcontrol) ?_
      rw [scheduledReqs_control hcontrol]
      exact nofun
  unfold restoreSession
  split
  · exact h
  · dsimp only
    split
    · exact hdrain _
    · exact (hdrain _).quiet (quiet_serve ops now _ (.restore _ _))

variable {cfg} in
theorem topStream_processUser {s : State C H ρ} (now : Time) (env : UserEnv E) {msg : UserMsg}
    (hwf : Wf s) (h : TopStream cfg s) (hcontrol : s.phase = .control)
    (hfresh : msg.uid ∉ s.admitted.map UserMsg.uid) (hpos : 0 < msg.samplingParams.maxTokens) :
    TopStream cfg (processUser ops cfg now env s msg) := by
  have hq := quiet_bindSession ops now env s msg
  have hext := bindSession_ext ops now env s msg
  unfold processUser
  split
  · exact h.quiet (quiet_error s _ _)
  · split
    · exact h.quiet ⟨rfl, rfl, rfl, rfl, rfl, rfl, rfl, rfl, fun _ => rfl⟩
    · split
      · rename_i s₁ heq
        rw [heq] at hq
        exact h.quiet hq
      · rename_i s₁ m heq
        obtain ⟨huid, hsampling⟩ := bindSession_msg ops now env (congrArg Prod.snd heq)
        rw [heq] at hq hext
        have h₁ : TopStream cfg s₁ := h.quiet hq
        unfold admitUser
        split
        · exact h₁.quiet (quiet_error s₁ _ _)
        · split
          · dsimp only
            split
            · exact h₁.quiet (quiet_error s₁ _ _)
            · exact (h₁.quiet (quiet_error s₁ _ _)).quiet (quiet_idleLease now _ _)
          · rename_i hlen
            split
            · exact h₁.quiet (quiet_error s₁ _ _)
            · refine topStream_addOneReq (topStream_restoreSession ops now env (hwf.ext hext) h₁
                (hq.phase.trans hcontrol) m) ?_ ?_
              · have hadm := (restoreSession_ext ops cfg now env s₁ m).admitted
                rw [hadm, hq.admitted]
                show m.uid ∉ _
                rw [huid]
                exact hfresh
              · show 0 < min m.samplingParams.maxTokens (cfg.maxSeqLen - m.inputIds.length)
                rw [hsampling]
                exact Nat.lt_min.mpr ⟨hpos, Nat.sub_pos_of_lt (Nat.lt_of_not_le hlen)⟩

-- ---------------------------------------------------------------------------
-- The pass
-- ---------------------------------------------------------------------------

/-- `r` is the request of the whole prompt `p`, not forwarded yet. -/
structure WholeOf (p : PendingReq) (r : Req ρ) : Prop where
  uid       : r.uid = p.uid
  sampling  : r.samplingParams = p.samplingParams
  outputLen : r.outputLen = p.outputLen
  span      : r.maxDeviceLen = p.inputLen + p.outputLen
  tokens    : r.inputIds = p.inputIds
  length    : r.deviceLen = p.inputLen

theorem WholeOf.of_core {p : PendingReq} {r r' : Req ρ} (h : WholeOf p r)
    (hcore : r'.core = r.core) : WholeOf p r' where
  uid := (congrArg Req.uid hcore).trans h.uid
  sampling := (congrArg Req.samplingParams hcore).trans h.sampling
  outputLen := (congrArg Req.outputLen hcore).trans h.outputLen
  span := (congrArg Req.maxDeviceLen hcore).trans h.span
  tokens := (congrArg Req.inputIds hcore).trans h.tokens
  length := (congrArg Req.deviceLen hcore).trans h.length

theorem wholeOf_newReq (p : PendingReq) (cachedLen : Nat) {chunkEnd : Nat}
    (tableIdx : Option Nat) (res : ρ) (hhi : chunkEnd ≤ p.inputLen)
    (hwhole : (newReq p cachedLen chunkEnd tableIdx res).isChunked = false) :
    WholeOf p (newReq p cachedLen chunkEnd tableIdx res) := by
  have hend : chunkEnd = p.inputLen :=
    Nat.le_antisymm hhi (Nat.le_of_not_lt (of_decide_eq_false hwhole))
  subst hend
  exact ⟨rfl, rfl, rfl, rfl, List.take_length .., rfl⟩

/-- The uids of the prompts a pass has seated as a whole. -/
def wholeUids (s : State C H ρ) (seated : List ReqId) : List Uid :=
  (seated.filter fun r => !(s.reqs r).isChunked).map fun r => (s.reqs r).uid

theorem wholeUids_congr {s s' : State C H ρ} {seated : List ReqId}
    (h : ∀ r ∈ seated, (s'.reqs r).core = (s.reqs r).core) :
    wholeUids s' seated = wholeUids s seated := by
  have hchunk : ∀ r ∈ seated, (s'.reqs r).isChunked = (s.reqs r).isChunked :=
    fun r hr => Req.isChunked_of_static (static_of_core (h r hr))
  unfold wholeUids
  rw [List.filter_congr fun r hr => by rw [hchunk r hr]]
  exact List.map_congr_left fun r hr =>
    Req.uid_of_static (static_of_core (h r (List.mem_of_mem_filter hr)))

/-- A request object a pass built. -/
structure Built (s₀ : State C H ρ) (acc : PassAcc C H ρ) (r : ReqId) : Prop where
  seated : r ∈ acc.seated
  kept   : (acc.state.reqs r).aborted = false
  owns   : (acc.state.reqs r).tableIdx ≠ none
  whole  : (acc.state.reqs r).isChunked = false →
             ∃ p ∈ s₀.pendingList, WholeOf p (acc.state.reqs r)

theorem Built.of_core {s₀ : State C H ρ} {acc acc' : PassAcc C H ρ} {r : ReqId}
    (h : Built s₀ acc r) (hseated : r ∈ acc'.seated)
    (hcore : (acc'.state.reqs r).core = (acc.state.reqs r).core) : Built s₀ acc' r where
  seated := hseated
  kept := (congrArg Req.aborted hcore).trans h.kept
  owns hnone := h.owns ((congrArg Req.tableIdx hcore).symm.trans hnone)
  whole hc := by
    obtain ⟨p, hp, hw⟩ := h.whole ((congrArg Req.isChunked hcore).symm.trans hc)
    exact ⟨p, hp, hw.of_core hcore⟩

/-- The admission loop for the streams: every prompt is still queued or seated
whole, once, and what was built is a request of a queued prompt. -/
structure PassStream (s₀ : State C H ρ) (acc : PassAcc C H ρ) (rest : List PendingReq) :
    Prop where
  lease    : PassLease s₀ acc rest
  admitted : acc.state.admitted = s₀.admitted
  outbox   : acc.state.outbox = s₀.outbox
  built    : ∀ r, s₀.nextReq ≤ r → r < acc.state.nextReq → Built s₀ acc r
  queue    : ∀ q ∈ acc.chunked, ∃ p ∈ s₀.pendingList, q.uid = p.uid ∧
               q.inputIds = p.inputIds ∧ q.samplingParams = p.samplingParams
  once     : (acc.chunked.map PendingReq.uid ++ wholeUids acc.state acc.seated ++
               (acc.remaining ++ rest).map PendingReq.uid).Perm
               (s₀.pendingList.map PendingReq.uid)

theorem passStream_step {s₀ : State C H ρ} (hwf : Wf s₀)
    (hown : ∀ p ∈ s₀.pendingList, ∀ r, p.chunkedReq = some r →
      (s₀.reqs r).tableIdx ≠ none ∧ (s₀.reqs r).aborted = false)
    {acc acc' : PassAcc C H ρ} {p : PendingReq} {ps : List PendingReq}
    (h : PassStream s₀ acc (p :: ps)) (hs : LaneStep acc p acc') : PassStream s₀ acc' ps := by
  have hlease := passLease_step hwf hown h.lease hs
  have hp : p ∈ s₀.pendingList :=
    h.lease.wf.remaining.subset (List.mem_append_right _ (List.mem_cons_self ..))
  cases hs with
  | kept s hs =>
    have hcore := hs.core
    obtain ⟨cache, reqs, rfl, -⟩ := hs
    refine ⟨hlease, h.admitted, h.outbox,
      fun r hlo hhi => (h.built r hlo hhi).of_core (h.built r hlo hhi).seated (hcore r),
      h.queue, ?_⟩
    dsimp only
    rw [wholeUids_congr fun r _ => hcore r, List.append_assoc acc.remaining, List.singleton_append]
    exact h.once
  | seated s hs cache cachedLen chunkEnd tableIdx tableFree res hsrc hlo hhi =>
    have hcore := hs.core
    obtain ⟨cache', reqs, rfl, -⟩ := hs
    have hold : ∀ r, r ≠ acc.state.nextReq → (Function.update reqs acc.state.nextReq
        (newReq p cachedLen chunkEnd tableIdx res) r).core = (acc.state.reqs r).core := by
      intro r hr
      rw [Function.update_of_ne hr]
      exact hcore r
    have hself : Function.update reqs acc.state.nextReq
        (newReq p cachedLen chunkEnd tableIdx res) acc.state.nextReq =
        newReq p cachedLen chunkEnd tableIdx res := Function.update_self ..
    have hslot : tableIdx ≠ none := by
      cases hsrc with
      | fresh slot _ _ _ => simp
      | continuation old hc =>
        intro hnone
        have hcore₀ := h.lease.core old (hwf.chunk p hp old hc).lt
        exact (hown p hp old hc).1 ((congrArg Req.tableIdx hcore₀).symm.trans hnone)
    refine ⟨hlease, h.admitted, h.outbox, ?_, ?_, ?_⟩
    · intro r hlo' hhi'
      by_cases hr : r = acc.state.nextReq
      · subst hr
        refine ⟨List.mem_append_right _ (List.mem_singleton_self _), ?_, ?_, ?_⟩
        · dsimp only
          rw [hself]
          rfl
        · dsimp only
          rw [hself]
          exact hslot
        · dsimp only
          rw [hself]
          exact fun hw => ⟨p, hp, wholeOf_newReq p cachedLen tableIdx res hhi hw⟩
      · have hlt : r < acc.state.nextReq := Nat.lt_of_le_of_ne (Nat.le_of_lt_succ hhi') hr
        have hb := h.built r hlo' hlt
        exact hb.of_core (List.mem_append_left _ hb.seated) (hold r hr)
    · intro q hq
      dsimp only at hq
      split at hq
      · rcases List.mem_append.mp hq with hq | hq
        · exact h.queue q hq
        · rw [List.mem_singleton] at hq
          subst hq
          exact ⟨p, hp, rfl, rfl, rfl⟩
      · exact h.queue q hq
    · -- the prompt moves from the rest of the queue to a chunk entry or to the seated ones
      have hprev : wholeUids ({ acc.state with
          cache := cache
          tableFree := tableFree
          nextReq := acc.state.nextReq + 1
          reqs := Function.update reqs acc.state.nextReq
            (newReq p cachedLen chunkEnd tableIdx res) } : State C H ρ) acc.seated =
          wholeUids acc.state acc.seated :=
        wholeUids_congr fun r hr => hold r (Nat.ne_of_lt (h.lease.wf.seated.2 r hr).2)
      have honce := h.once
      rw [List.map_append, List.map_cons] at honce
      refine List.Perm.trans ?_ honce
      dsimp only
      by_cases hpart : chunkEnd < p.inputLen
      · have hnew : wholeUids ({ acc.state with
            cache := cache
            tableFree := tableFree
            nextReq := acc.state.nextReq + 1
            reqs := Function.update reqs acc.state.nextReq
              (newReq p cachedLen chunkEnd tableIdx res) } : State C H ρ)
              (acc.seated ++ [acc.state.nextReq]) = wholeUids acc.state acc.seated := by
          rw [← hprev]
          simp [wholeUids, newReq, hpart]
        rw [if_pos hpart, hnew, List.map_append, List.map_append]
        simp only [List.map_cons, List.map_nil]
        grind
      · have hnew : wholeUids ({ acc.state with
            cache := cache
            tableFree := tableFree
            nextReq := acc.state.nextReq + 1
            reqs := Function.update reqs acc.state.nextReq
              (newReq p cachedLen chunkEnd tableIdx res) } : State C H ρ)
              (acc.seated ++ [acc.state.nextReq]) = wholeUids acc.state acc.seated ++ [p.uid] := by
          rw [← hprev]
          simp [wholeUids, newReq, hpart]
        rw [if_neg hpart, hnew, List.map_append]
        grind

theorem passStream_init (s : State C H ρ) : PassStream s ⟨s, [], [], []⟩ s.pendingList where
  lease := passLease_init s
  admitted := rfl
  outbox := rfl
  built r hlo hhi := absurd hhi (Nat.not_lt.mpr hlo)
  queue q hq := by cases hq
  once := by
    simp only [List.map_nil, wholeUids, List.filter_nil, List.nil_append]
    exact List.Perm.refl _

/-- The outcome of a pass, for the streams. -/
structure StreamPass (s s' : State C H ρ) (seated : List ReqId) : Prop where
  outcome  : PassOutcome s s' seated
  admitted : s'.admitted = s.admitted
  outbox   : s'.outbox = s.outbox
  built    : ∀ r, s.nextReq ≤ r → r < s'.nextReq → r ∈ seated ∧
               (s'.reqs r).aborted = false ∧ (s'.reqs r).tableIdx ≠ none ∧
               ((s'.reqs r).isChunked = false → ∃ p ∈ s.pendingList, WholeOf p (s'.reqs r))
  fresh    : ∀ r ∈ seated, s.nextReq ≤ r ∧ r < s'.nextReq
  queue    : ∀ q ∈ s'.pendingList, ∃ p ∈ s.pendingList, q.uid = p.uid ∧
               q.inputIds = p.inputIds ∧ q.samplingParams = p.samplingParams
  once     : (s'.pendingList.map PendingReq.uid ++ wholeUids s' seated).Perm
               (s.pendingList.map PendingReq.uid)

theorem streamPass_of_loop {s : State C H ρ} (hwf : Wf s)
    (hown : ∀ p ∈ s.pendingList, ∀ r, p.chunkedReq = some r →
      (s.reqs r).tableIdx ≠ none ∧ (s.reqs r).aborted = false)
    {lanes : List (LaneInput E)} {acc : PassAcc C H ρ}
    (hloop : passLoop ops ⟨s, [], [], []⟩ s.pendingList lanes = some acc) (rotate : Bool) :
    StreamPass s { acc.state with pendingList :=
      if rotate then acc.remaining ++ acc.chunked else acc.chunked ++ acc.remaining }
      acc.seated := by
  have hp : PassStream s acc [] := passLoop_induction ops
    (fun _ _ _ _ => passStream_step hwf hown) _ _ _ _ (passStream_init s) hloop
  refine ⟨passOutcome_of_loop ops hwf hown hloop rotate, hp.admitted, hp.outbox, ?_,
    hp.lease.wf.seated.2, ?_, ?_⟩
  · intro r hlo hhi
    have hb := hp.built r hlo hhi
    exact ⟨hb.seated, hb.kept, hb.owns, hb.whole⟩
  · intro q hq
    have hcases : q ∈ acc.chunked ∨ q ∈ acc.remaining := by
      dsimp only at hq
      split at hq
      · exact (List.mem_append.mp hq).symm
      · exact List.mem_append.mp hq
    rcases hcases with hq | hq
    · exact hp.queue q hq
    · exact ⟨q, hp.lease.wf.remaining.subset (List.mem_append_left _ hq), rfl, rfl, rfl⟩
  · have honce := hp.once
    rw [List.append_nil] at honce
    refine List.Perm.trans ?_ honce
    show ((if rotate then acc.remaining ++ acc.chunked else acc.chunked ++ acc.remaining).map
      PendingReq.uid ++ wholeUids acc.state acc.seated).Perm _
    cases rotate with
    | true =>
      rw [if_pos rfl, List.map_append]
      grind
    | false =>
      rw [if_neg Bool.false_ne_true, List.map_append]
      grind

theorem streamPass_refl {s : State C H ρ}
    (hown : ∀ p ∈ s.pendingList, ∀ r, p.chunkedReq = some r →
      (s.reqs r).tableIdx ≠ none ∧ (s.reqs r).aborted = false) : StreamPass s s [] where
  outcome := passOutcome_refl hown
  admitted := rfl
  outbox := rfl
  built r hlo hhi := absurd hhi (Nat.not_lt.mpr hlo)
  fresh r hr := by cases hr
  queue q hq := ⟨q, hq, rfl, rfl, rfl⟩
  once := by
    simp only [wholeUids, List.filter_nil, List.map_nil, List.append_nil]
    exact List.Perm.refl _

/-- A request of a pass's batch has its prompt's budget ahead of it. -/
theorem WholeOf.canDecode {p : PendingReq} {r : Req ρ} (h : WholeOf p r)
    (hwhole : r.isChunked = false) (hpos : 0 < p.outputLen) : r.canDecode = true := by
  rw [Req.canDecode, hwhole, Req.remainLen, h.span, h.length, Bool.not_false, Bool.true_and,
    decide_eq_true_iff]
  omega

/-- A whole prompt just seated starts its stream. -/
theorem serving_of_wholeOf {s : State C H ρ} {sched : List ReqId} {rows : List (ReqId × Token)}
    {deliv : Uid → List DetokenizeMsg} {msg : UserMsg} {p : PendingReq} {r : ReqId}
    (hw : WholeOf p (s.reqs r)) (hq : Queued msg p) (hchunk : (s.reqs r).isChunked = false)
    (howns : (s.reqs r).tableIdx ≠ none) (hpos : 0 < msg.samplingParams.maxTokens)
    (hdeliv : deliv msg.uid = []) (hsched : r ∈ sched) (hrows : r ∉ rows.map Prod.fst) :
    Serving cfg s sched rows deliv msg r 0 0 := by
  have hout : p.outputLen = msg.samplingParams.maxTokens := by
    rw [PendingReq.outputLen, hq.sampling]
  have hlen : p.inputLen = msg.inputIds.length := by rw [PendingReq.inputLen, hq.inputIds]
  refine ⟨⟨hw.uid.trans hq.uid, hw.sampling.trans hq.sampling, hchunk, hw.outputLen.trans hout,
    ?_, ?_⟩, howns, turnLength_pos cfg hpos, hdeliv, ?_, ?_, Nat.zero_le _, Or.inr (Or.inl hsched)⟩
  · rw [hw.span, hlen, hout]
  · rw [hw.tokens, hq.inputIds, tokensAfter, List.range_zero, List.map_nil, List.append_nil]
  · rw [tokensOf_eq_nil hrows]
    rfl
  · rw [hw.length, hlen]
    rfl

variable {cfg} in
theorem topStream_schedule {s s' : State C H ρ} (hwf : Wf s) (h : TopStream cfg s)
    (hcontrol : s.phase = .control) {inp : PassInput E} {b : Option (Bool × List ReqId)}
    (hrun : scheduleNextBatch ops s inp = some (s', b)) :
    TopStream cfg { s' with phase := .scheduled b } := by
  have hown : ∀ p ∈ s.pendingList, ∀ r, p.chunkedReq = some r →
      (s.reqs r).tableIdx ≠ none ∧ (s.reqs r).aborted = false := by
    intro p hp r hr
    have hc := hwf.chunk p hp r hr
    have ho := h.objects r hc.lt
    exact ⟨ho.2 hc.isChunked, ho.1⟩
  obtain ⟨seated, hs', hb⟩ := scheduleNextBatch_cases ops hrun
  have hpass : StreamPass s s' seated := by
    rcases hs' with ⟨rfl, rfl⟩ | ⟨acc, hloop, rfl, rfl⟩
    · exact streamPass_refl hown
    · exact streamPass_of_loop ops hwf hown hloop inp.rotate
  rw [TopStream, scheduledReqs_control hcontrol, launchedRows_control hcontrol] at h
  have hlast : lastRows ({ s' with phase := .scheduled b } : State C H ρ) = lastRows s := by
    rw [lastRows, lastRows, hpass.outcome.lastData]
  rw [TopStream, hlast]
  show StreamInv cfg (scheduledReqs ({ s' with phase := .scheduled b } : State C H ρ))
    (lastRows s) [] s'.finishedReqs [] (stream s') _
  rw [hpass.outcome.finished]
  have hdeliv : ∀ u, stream s' u = stream s u := stream_congr hpass.outbox
  have hadm : ∀ m ∈ s.admitted, m ∈ s'.admitted := fun m hm => hpass.admitted.symm ▸ hm
  have hcore := hpass.outcome.core
  have hchunk : ∀ r < s.nextReq, (s'.reqs r).isChunked = (s.reqs r).isChunked :=
    fun r hr => Req.isChunked_of_static (static_of_core (hcore r hr))
  have huid : ∀ r < s.nextReq, (s'.reqs r).uid = (s.reqs r).uid :=
    fun r hr => Req.uid_of_static (static_of_core (hcore r hr))
  have htab : ∀ r < s.nextReq, (s'.reqs r).tableIdx = (s.reqs r).tableIdx :=
    fun r hr => (congrArg Req.tableIdx (hcore r hr) : (s'.reqs r).core.tableIdx = _)
  have hrows : ∀ r ∈ (lastRows s).map Prod.fst, r < s.nextReq := by
    intro r hr
    rw [lastRows_reqs] at hr
    exact hwf.lastData.2 r hr
  -- every queued uid belongs to one prompt, in the queue or seated whole
  have honce : (s'.pendingList.map PendingReq.uid ++ wholeUids s' seated).Nodup :=
    hpass.once.nodup_iff.mpr h.single
  obtain ⟨hnodup, hnodup', hdisj⟩ := List.nodup_append'.mp honce
  have hnewUid : ∀ r, s.nextReq ≤ r → r < s'.nextReq → (s'.reqs r).isChunked = false →
      (s'.reqs r).uid ∈ wholeUids s' seated := by
    intro r hlo hhi hc
    refine List.mem_map.mpr ⟨r, List.mem_filter.mpr ⟨(hpass.built r hlo hhi).1, ?_⟩, rfl⟩
    rw [hc]
    rfl
  have hold : ∀ r, r < s'.nextReq → (s'.reqs r).isChunked = false →
      r < s.nextReq ∨ s.nextReq ≤ r ∧ (s'.reqs r).uid ∈ wholeUids s' seated := by
    intro r hr hc
    rcases Nat.lt_or_ge r s.nextReq with hlt | hge
    · exact Or.inl hlt
    · exact Or.inr ⟨hge, hnewUid r hge hr hc⟩
  have hseatedUid : ∀ u ∈ wholeUids s' seated, u ∈ s.pendingList.map PendingReq.uid :=
    fun u hu => hpass.once.subset (List.mem_append_right _ hu)
  have holdApart : ∀ r < s.nextReq, (s.reqs r).isChunked = false →
      (s.reqs r).uid ∉ s.pendingList.map PendingReq.uid := by
    intro r hr hc hm
    obtain ⟨p, hp, hpu⟩ := List.mem_map.mp hm
    exact h.apart r hr hc p hp hpu
  have hseatedSched : seated ≠ [] → scheduledReqs ({ s' with phase := .scheduled b } :
      State C H ρ) = seated := by
    intro hne
    rcases hb with ⟨-, rfl⟩ | ⟨rfl, -⟩
    · rfl
    · exact absurd rfl hne
  have hsched : ∀ r ∈ scheduledReqs ({ s' with phase := .scheduled b } : State C H ρ),
      r ∈ seated ∨ r ∈ s.runningReqs := by
    intro r hr
    rcases hb with ⟨-, rfl⟩ | ⟨-, rfl | rfl⟩
    · exact Or.inl hr
    · cases hr
    · right
      rw [← hpass.outcome.running]
      exact (decodeBatch_perm s').mem_iff.mp hr
  refine ⟨?_, ?_, ?_, hnodup, ?_, ?_, ?_, ?_, ?_, ?_, ?_, ?_, ?_, ?_⟩
  · show (s'.admitted.map UserMsg.uid).Nodup ∧ ∀ m ∈ s'.admitted, _
    rw [hpass.admitted]
    exact h.admitted
  · intro r hr
    rcases Nat.lt_or_ge r s.nextReq with hlt | hge
    · obtain ⟨hab, howns⟩ := h.objects r hlt
      refine ⟨(congrArg Req.aborted (hcore r hlt)).trans hab, fun hc hnone => ?_⟩
      exact howns ((hchunk r hlt).symm.trans hc) ((htab r hlt).symm.trans hnone)
    · obtain ⟨-, hab, howns, -⟩ := hpass.built r hge hr
      exact ⟨hab, fun _ => howns⟩
  · intro q hq
    obtain ⟨p, hp, hqu, hqi, hqs⟩ := hpass.queue q hq
    obtain ⟨msg, hm, hmp, hd⟩ := h.pending p hp
    exact ⟨msg, hadm msg hm, ⟨hqu.trans hmp.uid, hqi.trans hmp.inputIds,
      hqs.trans hmp.sampling⟩, (hdeliv _).trans hd⟩
  · intro r hr hc
    rcases Nat.lt_or_ge r s.nextReq with hlt | hge
    · refine (h.serves r hlt ((hchunk r hlt).symm.trans hc)).congr hadm (hcore r hlt)
        (hdeliv _) rfl ?_ nofun id
      exact fun hm => hpass.outcome.running.symm ▸ hm
    · obtain ⟨hseat, -, howns, hwhole⟩ := hpass.built r hge hr
      obtain ⟨p, hp, hw⟩ := hwhole hc
      obtain ⟨msg, hm, hmp, hd⟩ := h.pending p hp
      refine ⟨msg, hadm msg hm, Or.inr ⟨0, 0, serving_of_wholeOf cfg hw hmp hc howns
        (h.admitted.2 msg hm) ((hdeliv _).trans hd) ?_ ?_⟩⟩
      · show r ∈ scheduledReqs ({ s' with phase := .scheduled b } : State C H ρ)
        rw [hseatedSched (List.ne_nil_of_mem hseat)]
        exact hseat
      · rw [List.append_nil]
        exact fun hmem => absurd (hrows r hmem) (Nat.not_lt.mpr hge)
  · intro r hr hc q hq heq
    rcases hold r hr hc with hlt | ⟨-, hmem⟩
    · have hq' : q.uid ∈ s.pendingList.map PendingReq.uid :=
        hpass.once.subset (List.mem_append_left _ (List.mem_map_of_mem hq))
      rw [heq] at hq'
      exact holdApart r hlt ((hchunk r hlt).symm.trans hc) ((huid r hlt) ▸ hq')
    · exact hdisj (List.mem_map_of_mem hq) (heq ▸ hmem)
  · intro r hr hc r' hr' hc' heq
    rcases hold r hr hc with hlt | ⟨hge, hmem⟩
    · rcases hold r' hr' hc' with hlt' | ⟨-, hmem'⟩
      · exact h.unique r hlt ((hchunk r hlt).symm.trans hc) r' hlt'
          ((hchunk r' hlt').symm.trans hc') (by rw [← huid r hlt, ← huid r' hlt']; exact heq)
      · have hq := hseatedUid _ hmem'
        rw [heq] at hq
        exact absurd ((huid r hlt) ▸ hq) (holdApart r hlt ((hchunk r hlt).symm.trans hc))
    · rcases hold r' hr' hc' with hlt' | ⟨hge', -⟩
      · have hq := hseatedUid _ hmem
        rw [← heq] at hq
        exact absurd ((huid r' hlt') ▸ hq) (holdApart r' hlt' ((hchunk r' hlt').symm.trans hc'))
      · have hin : ∀ r, s.nextReq ≤ r → r < s'.nextReq → (s'.reqs r).isChunked = false →
            r ∈ seated.filter fun r => !(s'.reqs r).isChunked := by
          intro r hlo hhi hc
          refine List.mem_filter.mpr ⟨(hpass.built r hlo hhi).1, ?_⟩
          rw [hc]
          rfl
        exact List.inj_on_of_nodup_map hnodup' (hin r' hge' hr' hc') (hin r hge hr hc) heq
  · intro msg hm
    have hm : msg ∈ s.admitted := hpass.admitted ▸ hm
    rcases h.covered msg hm with ⟨p, hp, hpu⟩ | ⟨r, hr, hc, hu⟩
    · have hmem := hpass.once.symm.subset (List.mem_map_of_mem hp)
      rw [hpu] at hmem
      rcases List.mem_append.mp hmem with hmem | hmem
      · obtain ⟨q, hq, hqu⟩ := List.mem_map.mp hmem
        exact Or.inl ⟨q, hq, hqu⟩
      · obtain ⟨r, hr, hru⟩ := List.mem_map.mp hmem
        obtain ⟨hseat, hc⟩ := List.mem_filter.mp hr
        refine Or.inr ⟨r, (hpass.fresh r hseat).2, ?_, hru⟩
        simpa using hc
    · exact Or.inr ⟨r, Nat.lt_of_lt_of_le hr hpass.outcome.nextReq, (hchunk r hr).trans hc,
        (huid r hr).trans hu⟩
  · intro u hu
    rw [hdeliv]
    exact h.silent u (hpass.admitted ▸ hu)
  · intro r hr hc hnone
    have hlt := hrows r hr
    exact h.skipped r hr ((hchunk r hlt).symm.trans hc) ((htab r hlt).symm.trans hnone)
  · exact fun r hr => by cases hr
  · intro r hr
    obtain ⟨hlt, hnone⟩ := h.ended r hr
    exact ⟨Nat.lt_of_lt_of_le hlt hpass.outcome.nextReq, (htab r hlt).trans hnone⟩
  · intro r hr
    have hr : r ∈ s.runningReqs := hpass.outcome.running ▸ hr
    have hlt := (hwf.running r hr).1
    obtain ⟨howns, hcan⟩ := h.running r hr
    exact ⟨fun hnone => howns ((htab r hlt).symm.trans hnone),
      (canDecode_of_core (hcore r hlt)).trans hcan⟩
  · intro r hr hc
    rcases hsched r hr with hseat | hrun
    · obtain ⟨hlo, hhi⟩ := hpass.fresh r hseat
      obtain ⟨-, -, howns, hwhole⟩ := hpass.built r hlo hhi
      obtain ⟨p, hp, hw⟩ := hwhole hc
      obtain ⟨msg, hm, hmp, -⟩ := h.pending p hp
      refine ⟨howns, hw.canDecode hc ?_⟩
      rw [PendingReq.outputLen, hmp.sampling]
      exact h.admitted.2 msg hm
    · have hlt := (hwf.running r hrun).1
      obtain ⟨howns, hcan⟩ := h.running r hrun
      exact ⟨fun hnone => howns ((htab r hlt).symm.trans hnone),
        (canDecode_of_core (hcore r hlt)).trans hcan⟩

-- ---------------------------------------------------------------------------
-- The forward and the drain
-- ---------------------------------------------------------------------------

/-- A forward samples the next token of the turn its request serves. -/
theorem Serving.forward {s s' : State C H ρ} {sched : List ReqId}
    {rows : List (ReqId × Token)} {deliv : Uid → List DetokenizeMsg} {msg : UserMsg}
    {r : ReqId} {k n : Nat} (h : Serving cfg s sched rows deliv msg r k n)
    {later : List (ReqId × Token)}
    (hcore : (s'.reqs r).core = (s.reqs r).completeOne.core)
    (hcan : (s.reqs r).canDecode = true)
    (hlater : tokensOf later r = [sampledToken cfg (s.reqs r)])
    (hrun : (s'.reqs r).canDecode = true → r ∈ s'.runningReqs) :
    Serving cfg s' [] (rows ++ later) deliv msg r k (n + 1) := by
  obtain ⟨-, htab, -⟩ := completeOne_fields hcore
  have hbudget := (h.req.canDecode cfg h.length).mp hcan
  have htok : sampledToken cfg (s.reqs r) = cfg.script msg.uid (k + n) := by
    rw [sampledToken, h.req.promptLen, h.length, h.req.uid, Nat.add_sub_cancel_left]
  have hreq : TurnReq cfg msg (s.reqs r).completeOne k :=
    ⟨h.req.uid, h.req.sampling, h.req.whole, h.req.outputLen, h.req.span, h.req.tokens⟩
  refine ⟨hreq.of_core cfg hcore, fun hnone => h.owns (htab.symm.trans hnone), h.within,
    h.delivered, ?_, ?_, hbudget, ?_⟩
  · rw [tokensOf_append, h.inflight, hlater, htok, List.range'_1_concat, List.map_append]
    rfl
  · have hlen : (s'.reqs r).deviceLen = (s.reqs r).deviceLen + 1 :=
      (congrArg Req.deviceLen hcore : (s'.reqs r).core.deviceLen = _)
    rw [hlen, h.length]
    omega
  · cases hc : (s'.reqs r).canDecode with
    | true => exact Or.inl (hrun hc)
    | false =>
      refine Or.inr (Or.inr ⟨?_, rfl⟩)
      rw [List.map_append]
      refine List.mem_append_right _ ?_
      by_contra hnot
      rw [tokensOf_eq_nil hnot] at hlater
      cases hlater

variable {cfg} in
theorem topStream_forward {s : State C H ρ} (hwf : Wf s) (h : TopStream cfg s)
    {isPrefill : Bool} {rids : List ReqId}
    (hphase : s.phase = .scheduled (some (isPrefill, rids))) :
    TopStream cfg { (forwardBatch ops cfg s isPrefill rids).1 with
      phase := .launched (some (forwardBatch ops cfg s isPrefill rids).2) } := by
  have hb : BatchOk s rids := by
    have := hwf.phase
    rw [hphase] at this
    exact this
  obtain ⟨cache, reqs, heq, hin, hout, hrows⟩ := forwardBatch_cases ops cfg s isPrefill rids hb.1
  have hsched : scheduledReqs s = rids := by rw [scheduledReqs, hphase]
  have hlaunched : launchedRows s = [] := by rw [launchedRows, hphase]
  rw [TopStream, hsched, hlaunched] at h
  rw [heq, hrows]
  show StreamInv cfg [] (lastRows s) (rids.map fun rid => (rid, sampledToken cfg (s.reqs rid)))
    s.finishedReqs [] (stream s) _
  -- a completed row keeps what the invariant says of the requests
  have hfields : ∀ r, (reqs r).isChunked = (s.reqs r).isChunked ∧
      (reqs r).tableIdx = (s.reqs r).tableIdx ∧ (reqs r).aborted = (s.reqs r).aborted ∧
      (reqs r).uid = (s.reqs r).uid := by
    intro r
    by_cases hr : r ∈ rids
    · obtain ⟨hc, ht, ha, hu, -⟩ := completeOne_fields (hin r hr)
      exact ⟨hc, ht, ha, hu⟩
    · rw [hout r hr]
      exact ⟨rfl, rfl, rfl, rfl⟩
  have hfst : (rids.map fun rid => (rid, sampledToken cfg (s.reqs rid))).map Prod.fst = rids := by
    rw [List.map_map]
    exact List.map_id _
  have hrun : ∀ r, r ∈ s.runningReqs ∨ r ∈ rids → (reqs r).canDecode = true →
      r ∈ (filterReqs { s with cache := cache, reqs := reqs } rids).runningReqs :=
    fun r hr hc => (mem_filterReqs _ rids r).mpr ⟨hr, hc⟩
  refine ⟨h.admitted, ?_, h.pending, h.single, ?_, ?_, ?_, ?_, h.silent, ?_, ?_, ?_, ?_,
    fun r hr => absurd hr List.not_mem_nil⟩
  · intro r hr
    obtain ⟨hc, ht, ha, -⟩ := hfields r
    show (reqs r).aborted = false ∧ ((reqs r).isChunked = true → (reqs r).tableIdx ≠ none)
    rw [hc, ht, ha]
    exact h.objects r hr
  · intro r hr hc
    have hc' : (s.reqs r).isChunked = false := (hfields r).1.symm.trans hc
    by_cases hmem : r ∈ rids
    · -- a row of the batch has one token more in flight
      obtain ⟨howns, hcan⟩ := h.sched r hmem hc'
      obtain ⟨msg, hm, hover | ⟨k, n, hs⟩⟩ := h.serves r hr hc'
      · exact absurd hover.freed howns
      · rw [List.append_nil] at hs
        exact ⟨msg, hm, Or.inr ⟨k, n + 1, hs.forward cfg (hin r hmem) hcan
          (tokensOf_map hb.1 _ hmem) (hrun r (Or.inr hmem))⟩⟩
    · -- the others have none of the batch
      have hnil : tokensOf (rids.map fun rid => (rid, sampledToken cfg (s.reqs rid))) r = [] :=
        tokensOf_eq_nil (hfst.symm ▸ hmem)
      refine (h.serves r hr hc').congr (fun _ hm => hm) (congrArg Req.core (hout r hmem)) rfl ?_
        ?_ (fun hm => absurd hm hmem) ?_
      · rw [List.append_nil, tokensOf_append, hnil, List.append_nil]
      · intro hrunning
        refine hrun r (Or.inl hrunning) ?_
        rw [hout r hmem]
        exact (h.running r hrunning).2
      · intro hm
        rw [List.append_nil] at hm
        rw [List.map_append]
        exact List.mem_append_left _ hm
  · intro r hr hc p hp
    show p.uid ≠ (reqs r).uid
    rw [(hfields r).2.2.2]
    exact h.apart r hr ((hfields r).1.symm.trans hc) p hp
  · intro r hr hc r' hr' hc' heq'
    have hu : (reqs r').uid = (reqs r).uid := heq'
    rw [(hfields r).2.2.2, (hfields r').2.2.2] at hu
    exact h.unique r hr ((hfields r).1.symm.trans hc) r' hr' ((hfields r').1.symm.trans hc') hu
  · intro msg hm
    rcases h.covered msg hm with hp | ⟨r, hr, hc, hu⟩
    · exact Or.inl hp
    · exact Or.inr ⟨r, hr, (hfields r).1.trans hc, (hfields r).2.2.2.trans hu⟩
  · intro r hr hc hnone
    exact h.skipped r hr ((hfields r).1.symm.trans hc) ((hfields r).2.1.symm.trans hnone)
  · intro r hr hc hnone
    rw [hfst] at hr
    exact absurd ((hfields r).2.1.symm.trans hnone)
      (h.sched r hr ((hfields r).1.symm.trans hc)).1
  · intro r hr
    obtain ⟨hlt, hnone⟩ := h.ended r hr
    exact ⟨hlt, (hfields r).2.1.trans hnone⟩
  · intro r hr
    obtain ⟨hmem, hcan⟩ := (mem_filterReqs _ rids r).mp hr
    refine ⟨fun hnone => ?_, hcan⟩
    have hnone' : (s.reqs r).tableIdx = none := (hfields r).2.1.symm.trans hnone
    rcases hmem with hmem | hmem
    · exact (h.running r hmem).1 hnone'
    · have hc : (reqs r).isChunked = false := by
        simp only [Req.canDecode, Bool.and_eq_true, Bool.not_eq_true'] at hcan
        exact hcan.1
      exact (h.sched r hmem ((hfields r).1.symm.trans hc)).1 hnone'

/-- What the induction over a run carries. -/
structure StreamLoop (overlap : Bool) (s : State C H ρ) : Prop where
  wf     : Wf s
  top    : TopStream cfg s
  normal : overlap = false → s.lastData = none

variable {cfg} in
theorem topStream_drain {overlap : Bool} {s : State C H ρ} (now : Time)
    (h : StreamLoop cfg overlap s) {b : Option Batch} (hphase : s.phase = .launched b)
    (hok : overlap = true → ∀ row ∈ lastRows s, row.1 ∈ (launchedRows s).map Prod.fst →
      (s.reqs row.1).canDecode = true ∨
        hitStop cfg ((s.reqs row.1).appendHost row.2) row.2 = true) :
    TopStream cfg { flushAbortAcks
      (processLastData ops cfg now s (if overlap then s.lastData else b)) with
        phase := .control
        lastData := if overlap then b else none } := by
  have htop := h.top
  have hsched : scheduledReqs s = [] := by rw [scheduledReqs, hphase]
  have hlaunched : launchedRows s = b.elim [] Batch.rows := by
    rw [launchedRows, hphase]
    cases b <;> rfl
  rw [TopStream, hsched] at htop
  cases overlap with
  | true =>
    have hb : BatchOk s (s.lastData.elim [] Batch.reqs) := lastReqs_elim s ▸ h.wf.lastData
    have hd := streamInv_processLastData ops cfg now h.wf s.lastData hb htop
      fun row hrow => ⟨hok rfl row hrow, fun hmem => absurd hmem List.not_mem_nil⟩
    have hq := quiet_flushAbortAcks (processLastData ops cfg now s s.lastData)
    rw [hlaunched] at hd
    exact hd.congr rfl rfl rfl rfl rfl hq.stream
  | false =>
    have hlast : lastRows s = [] := by
      rw [lastRows, h.normal rfl]
      rfl
    rw [hlast, hlaunched] at htop
    have hd := streamInv_processLastData ops cfg now h.wf b (h.wf.launched hphase)
      (htop.shift (fun r hr => absurd hr List.not_mem_nil) fun _ hr => Or.inl hr)
      fun row _ => drainRowOk_nil cfg
    have hq := quiet_flushAbortAcks (processLastData ops cfg now s b)
    exact hd.congr rfl rfl rfl rfl rfl hq.stream

-- ---------------------------------------------------------------------------
-- The loops
-- ---------------------------------------------------------------------------

theorem streamLoop_init (overlap : Bool) (cache : C) (dummy : Req ρ) (n : Nat) :
    StreamLoop cfg overlap (State.init cache dummy n : State C H ρ) where
  wf := wf_init cache dummy n
  top :=
    { admitted := ⟨List.nodup_nil, List.forall_mem_nil _⟩
      objects := fun _ hr => absurd hr (Nat.not_lt_zero _)
      pending := List.forall_mem_nil _
      single := List.nodup_nil
      serves := fun _ hr => absurd hr (Nat.not_lt_zero _)
      apart := fun _ hr => absurd hr (Nat.not_lt_zero _)
      unique := fun _ hr => absurd hr (Nat.not_lt_zero _)
      covered := List.forall_mem_nil _
      silent := fun _ _ => rfl
      skipped := List.forall_mem_nil _
      later := List.forall_mem_nil _
      ended := fun _ hr => (hr.elim (List.not_mem_nil) (List.not_mem_nil)).elim
      running := List.forall_mem_nil _
      sched := List.forall_mem_nil _ }
  normal _ := rfl

theorem streamLoop_step {overlap : Bool} {s s' : State C H ρ} {a : Step E}
    (h : StreamLoop cfg overlap s) (hok : StreamStepOk cfg overlap s a)
    (hstep : step ops cfg overlap s a = some s') : StreamLoop cfg overlap s' := by
  refine ⟨wf_step ops cfg h.wf hstep, ?_, normal_step ops cfg h.normal hstep⟩
  cases step_cases ops cfg hstep with
  | msg now m env hphase =>
    cases m with
    | user msg => exact topStream_processUser ops now env h.wf h.top hphase hok.1 hok.2
    | abort u sid => exact hok.elim
    | closeSession sid requestId => exact hok.elim
  | expire now hphase => exact h.top.quiet (quiet_expireSessions ops cfg now s)
  | service now e hphase => exact h.top.quiet (quiet_serve ops now s e)
  | drainInflight now hphase =>
    refine topStream_drainInflight ops now h.wf h.top ?_ hok
    rw [launchedRows]
    split
    · exact absurd ‹_› (hphase _)
    · rfl
  | schedule inp hphase t b hrun => exact topStream_schedule ops h.wf h.top hphase hrun
  | forwardNone hphase =>
    have htop := h.top
    rw [TopStream, scheduledReqs, launchedRows, hphase] at htop
    exact htop.congr rfl rfl rfl rfl rfl fun _ => rfl
  | forward isPrefill rids hphase => exact topStream_forward ops h.wf h.top hphase
  | drain now b hphase => exact topStream_drain ops now h hphase hok

/-- The client of `msg` was sent a prefix of its stream, and all of it once no
live request is left of the turn. -/
structure Delivered (s : State C H ρ) (msg : UserMsg) : Prop where
  sent : stream s msg.uid <+: expected cfg msg
  all  : ¬ HasLiveRequest s msg.uid → stream s msg.uid = expected cfg msg

variable {cfg} in
theorem TopStream.delivered {s : State C H ρ} (h : TopStream cfg s) {msg : UserMsg}
    (hm : msg ∈ s.admitted) : Delivered cfg s msg := by
  rcases h.covered msg hm with ⟨p, hp, hpu⟩ | ⟨r, hr, hc, hu⟩
  · obtain ⟨m, hm', hq, hd⟩ := h.pending p hp
    obtain rfl := h.same_msg hm' hm (hq.uid.symm.trans hpu)
    exact ⟨hd ▸ List.nil_prefix, fun hlive => absurd (Or.inl ⟨p, hp, hpu⟩) hlive⟩
  · obtain ⟨m, hm', hover | ⟨k, n, hs⟩⟩ := h.serves r hr hc
    · obtain rfl := h.same_msg hm' hm (hover.uid.symm.trans hu)
      exact ⟨hover.delivered ▸ List.prefix_refl _, fun _ => hover.delivered⟩
    · obtain rfl := h.same_msg hm' hm (hs.req.uid.symm.trans hu)
      refine ⟨?_, fun hlive => absurd (Or.inr ⟨r, hs.req.uid, hs.owns, ?_⟩) hlive⟩
      · rw [hs.delivered]
        exact delivered_prefix cfg (Nat.le_of_lt hs.within)
      · refine hs.place.imp id (Or.imp id fun hp => ?_)
        have hrows := hp.1
        rw [List.map_append, lastRows_reqs, launchedRows_reqs] at hrows
        exact hrows

/-- In every guarded run of either loop every client was sent what it was promised. -/
theorem delivered_of_reach {overlap : Bool} {cache : C} {dummy : Req ρ} {n : Nat}
    {s : State C H ρ}
    (hs : Lib.Reach (step ops cfg overlap) (StreamStepOk cfg overlap)
      (State.init cache dummy n) s) : ∀ msg ∈ s.admitted, Delivered cfg s msg :=
  fun _ hm => (hs.invariant (streamLoop_init cfg overlap cache dummy n)
    fun _ _ _ h hok hstep => streamLoop_step ops cfg h hok hstep).top.delivered hm

/--
**Overlap scheduling does not change the delivered output.** In every run of
`overlap_loop` whose steps meet `StreamStepOk`, and in every such run of
`normal_loop`, each client was sent a prefix of `expected`, and all of it once its
request is gone; so a prompt both runs are done with got the same stream from both.
-/
theorem overlap_streams_agree {cache cache' : C} {dummy dummy' : Req ρ} {n n' : Nat}
    {s s' : State C H ρ}
    (hs : Lib.Reach (step ops cfg true) (StreamStepOk cfg true) (State.init cache dummy n) s)
    (hs' : Lib.Reach (step ops cfg false) (StreamStepOk cfg false)
      (State.init cache' dummy' n') s') :
    (∀ msg ∈ s.admitted, Delivered cfg s msg) ∧ (∀ msg ∈ s'.admitted, Delivered cfg s' msg) ∧
      ∀ msg ∈ s.admitted, msg ∈ s'.admitted →
        ¬ HasLiveRequest s msg.uid → ¬ HasLiveRequest s' msg.uid →
        stream s msg.uid = stream s' msg.uid := by
  have h := delivered_of_reach ops cfg hs
  have h' := delivered_of_reach ops cfg hs'
  exact ⟨h, h', fun msg hm hm' hend hend' =>
    ((h msg hm).all hend).trans ((h' msg hm').all hend').symm⟩

-- ---------------------------------------------------------------------------
-- A turn of two tokens
-- ---------------------------------------------------------------------------

/-- A prompt of one token with an output budget of two. -/
def twoTokens : UserMsg :=
  { turn 1 with sessionId := none, samplingParams := ⟨2, false, []⟩ }

/-- The prompt is queued, prefilled, and decoded once. -/
def twoForwards (msg : UserMsg) : List (Step Unit) :=
  [.msg 0 (.user msg) .quiet,
   .schedule ⟨true, [⟨[], .seat 1⟩], false, true⟩, .forward, .drain 0,
   .schedule ⟨true, [], false, true⟩, .forward, .drain 0]

/-- The state after `twoForwards`, in `overlap_loop` or in `normal_loop`. -/
def afterTwoForwards (cfg : Config) (overlap : Bool) (msg : UserMsg) : State Unit Unit Unit :=
  (Lib.run (step .naive cfg overlap) (State.init () .dummy 4) (twoForwards msg)).getD
    (State.init () .dummy 4)

/-- `overlap_loop` drains the prefill after the decode was forwarded: the drain
finds the budget spent and ends the turn with its first token, while
`normal_loop` delivers both. -/
theorem overlap_ends_turn_early :
    Lib.Reach (step .naive .plain true) (fun _ _ => True) (State.init () .dummy 4)
      (afterTwoForwards .plain true twoTokens) ∧
    Lib.Reach (step .naive .plain false) (fun _ _ => True) (State.init () .dummy 4)
      (afterTwoForwards .plain false twoTokens) ∧
    ¬ HasLiveRequest (afterTwoForwards .plain true twoTokens) 1 ∧
    stream (afterTwoForwards .plain true twoTokens) 1 =
      [⟨1, 1, true, some .length, none⟩] ∧
    stream (afterTwoForwards .plain false twoTokens) 1 =
      [⟨1, 1, false, none, none⟩, ⟨1, 2, true, some .length, none⟩] := by
  refine ⟨Lib.reach_of_run (twoForwards twoTokens) rfl,
    Lib.reach_of_run (twoForwards twoTokens) rfl, ?_, by decide, by decide⟩
  rintro (⟨p, hp, -⟩ | ⟨r, -, htab, hr | hr | hr⟩)
  · cases hp
  · cases hr
  · cases hr
  · rcases List.mem_singleton.mp hr with rfl
    exact htab rfl

/-- A model that ends a turn with its second token. -/
def Config.eosSecond : Config := { Config.plain with script := fun _ i => if i = 1 then 0 else 7 }

def fourTokens : UserMsg := { twoTokens with samplingParams := ⟨4, false, []⟩ }

/-- The turn of `fourTokens`: the EOS is drained with one more decode in flight. -/
def eosTurn : List (Step Unit) :=
  twoForwards fourTokens ++ [.schedule ⟨true, [], false, true⟩, .forward, .drain 0]

def afterEosTurn (overlap : Bool) : State Unit Unit Unit :=
  (Lib.guardedRun (step .naive .eosSecond overlap) (StreamStepOk .eosSecond overlap)
    (State.init () .dummy 4) eosTurn).getD (State.init () .dummy 4)

/-- A turn that ends with an EOS is the same in both loops. -/
theorem eos_turn_streams_agree :
    stream (afterEosTurn true) 1 = stream (afterEosTurn false) 1 ∧
      (stream (afterEosTurn true) 1).length = 2 := by
  have hs : Lib.Reach (step .naive .eosSecond true) (StreamStepOk .eosSecond true)
      (State.init () .dummy 4) (afterEosTurn true) := Lib.reach_of_guardedRun eosTurn rfl
  have hn : Lib.Reach (step .naive .eosSecond false) (StreamStepOk .eosSecond false)
      (State.init () .dummy 4) (afterEosTurn false) := Lib.reach_of_guardedRun eosTurn rfl
  refine ⟨(overlap_streams_agree .naive .eosSecond hs hn).2.2 fourTokens
    (List.mem_singleton_self _) (List.mem_singleton_self _) ?_ ?_, by decide⟩
  · rintro (⟨p, hp, -⟩ | ⟨r, -, htab, hr | hr | hr⟩)
    · cases hp
    · cases hr
    · cases hr
    · rcases List.mem_singleton.mp hr with rfl
      exact htab rfl
  · rintro (⟨p, hp, -⟩ | ⟨r, -, htab, hr | hr | hr⟩)
    · cases hp
    · cases hr
    · cases hr
    · cases hr

end FreeToken.Scheduler
