import FreeToken.Scheduler.Loop

/-!
# What one handler may touch

Inversion and frame lemmas for the handlers of `Loop`. Everything proved about
the control plane is derived from these; no later module unfolds a handler.
-/

namespace FreeToken.Scheduler

variable {C H ρ E : Type} (ops : CacheOps C H ρ E) (cfg : Config)

-- ---------------------------------------------------------------------------
-- Fields of a request object that no handler changes
-- ---------------------------------------------------------------------------

/-- The part of a request object that is fixed when it is built. -/
structure Static where
  uid : Uid
  sessionId : Option SessionId
  samplingParams : SamplingParams
  mmItems : List Nat
  isChunked : Bool
  maxDeviceLen : Nat
  outputLen : Nat

def Req.static {ρ : Type} (r : Req ρ) : Static where
  uid := r.uid
  sessionId := r.sessionId
  samplingParams := r.samplingParams
  mmItems := r.mmItems
  isChunked := r.isChunked
  maxDeviceLen := r.maxDeviceLen
  outputLen := r.outputLen

theorem Req.uid_of_static {r r' : Req ρ} (h : r'.static = r.static) : r'.uid = r.uid :=
  congrArg Static.uid h

theorem Req.sessionId_of_static {r r' : Req ρ} (h : r'.static = r.static) :
    r'.sessionId = r.sessionId :=
  congrArg Static.sessionId h

theorem Req.mmItems_of_static {r r' : Req ρ} (h : r'.static = r.static) :
    r'.mmItems = r.mmItems :=
  congrArg Static.mmItems h

theorem Req.isChunked_of_static {r r' : Req ρ} (h : r'.static = r.static) :
    r'.isChunked = r.isChunked :=
  congrArg Static.isChunked h

-- ---------------------------------------------------------------------------
-- `_free_req_resources`
-- ---------------------------------------------------------------------------

/-- The leases after a request was freed: the ones of other sessions and of other
turns are the same, the lease handed the request's prefix is idle. -/
structure Retained (old new : SessionId → Option (SessionLease H)) (uid : Uid) : Prop where
  other : ∀ sid, new sid = old sid ∨ ∃ l l', old sid = some l ∧ l.activeUid = some uid ∧
    new sid = some l' ∧ l'.activeUid = none

theorem Retained.refl (old : SessionId → Option (SessionLease H)) (uid : Uid) :
    Retained old old uid :=
  ⟨fun _ => Or.inl rfl⟩

/-- A lease that went idle is not handed another prefix by the same turn. -/
theorem Retained.trans {a b c : SessionId → Option (SessionLease H)} {uid : Uid}
    (h₁ : Retained a b uid) (h₂ : Retained b c uid) : Retained a c uid := by
  refine ⟨fun sid => ?_⟩
  rcases h₂.other sid with h | ⟨l, l', hl, hu, hl', hu'⟩
  · rw [h]
    exact h₁.other sid
  · rcases h₁.other sid with h | ⟨m, m', -, -, hm', hmu'⟩
    · exact Or.inr ⟨l, l', h ▸ hl, hu, hl', hu'⟩
    · rw [hm', Option.some.injEq] at hl
      rw [← hl, hmu'] at hu
      cases hu

theorem retainsSession_eq_some {s : State C H ρ} {req : Req ρ} {sid : SessionId}
    {l : SessionLease H} (h : retainsSession s req = some (sid, l)) :
    req.sessionId = some sid ∧ s.sessions sid = some l ∧ req.mmItems = [] ∧
      l.activeUid = some req.uid := by
  unfold retainsSession at h
  split at h
  · cases h
  · rename_i sid' hsid
    split at h
    · cases h
    · rename_i l' hl
      split at h
      · rename_i hc
        simp only [Option.some.injEq, Prod.mk.injEq] at h
        obtain ⟨rfl, rfl⟩ := h
        exact ⟨hsid, hl, hc.1, hc.2⟩
      · cases h

theorem retainsSession_of_lease {s : State C H ρ} {req : Req ρ} {sid : SessionId}
    {l : SessionLease H} (hsid : req.sessionId = some sid) (hl : s.sessions sid = some l)
    (hmm : req.mmItems = []) (hu : l.activeUid = some req.uid) :
    retainsSession s req = some (sid, l) := by
  simp [retainsSession, hsid, hl, hmm, hu]

/-- A request whose resources are gone is left alone. -/
theorem freeReqResources_freed (now : Time) (retain : Bool) {s : State C H ρ} {rid : ReqId}
    (h : (s.reqs rid).tableIdx = none) :
    freeReqResources ops cfg now s rid retain = s := by
  simp [freeReqResources, h]

/-- All `keepPrefix` can do: nothing, or hand the prefix to the lease whose turn it is. -/
theorem keepPrefix_cases (now : Time) (s : State C H ρ) (rid : ReqId) (retain : Bool) :
    ∃ cache sessions aliases,
      keepPrefix ops cfg now s rid retain =
        { s with cache := cache, sessions := sessions, sessionAliases := aliases } ∧
      Retained s.sessions sessions (s.reqs rid).uid ∧
      (retain = false → sessions = s.sessions) ∧
      (∀ sid l, retain = true → (s.reqs rid).sessionId = some sid →
        s.sessions sid = some l → l.activeUid = some (s.reqs rid).uid →
        (s.reqs rid).mmItems = [] → ∃ l', sessions sid = some l' ∧ l'.activeUid = none) := by
  cases retain with
  | false =>
    refine ⟨s.cache, s.sessions, s.sessionAliases, rfl, Retained.refl _ _, fun _ => rfl, ?_⟩
    intro sid l hf
    cases hf
  | true =>
    cases hkeep : retainsSession s (s.reqs rid) with
    | none =>
      refine ⟨s.cache, s.sessions, s.sessionAliases, by simp [keepPrefix, hkeep],
        Retained.refl _ _, fun _ => rfl, ?_⟩
      intro sid l _ hsid hl hu hmm
      rw [retainsSession_of_lease hsid hl hmm hu] at hkeep
      cases hkeep
    | some kept =>
      obtain ⟨sid, l⟩ := kept
      obtain ⟨hsid, hl, hmm, hu⟩ := retainsSession_eq_some hkeep
      have hdef : keepPrefix ops cfg now s rid true =
          retainSession ops cfg now s (s.reqs rid) sid l := by
        simp [keepPrefix, hkeep]
      refine ⟨_, _, _, hdef, ⟨?_⟩, ?_, ?_⟩
      · intro sid'
        by_cases hs : sid' = sid
        · subst hs
          exact Or.inr ⟨l, _, hl, hu, Function.update_self .., rfl⟩
        · exact Or.inl (Function.update_of_ne hs ..)
      · intro hf
        cases hf
      · intro sid' l' _ hsid' _ _ _
        obtain rfl : sid = sid' := Option.some.inj (hsid.symm.trans hsid')
        exact ⟨_, Function.update_self .., rfl⟩

/-- All `_free_req_resources` can do to a request that still owns a table slot. -/
theorem freeReqResources_cases (now : Time) (retain : Bool) {s : State C H ρ} {rid : ReqId}
    {slot : Nat} (h : (s.reqs rid).tableIdx = some slot) :
    ∃ cache sessions aliases res,
      freeReqResources ops cfg now s rid retain =
        { s with
          cache := cache
          sessions := sessions
          sessionAliases := aliases
          tableFree := s.tableFree ++ [slot]
          reqs := Function.update s.reqs rid
            { s.reqs rid with res := res, tableIdx := none } } ∧
      Retained s.sessions sessions (s.reqs rid).uid ∧
      (retain = false → sessions = s.sessions) ∧
      (∀ sid l, retain = true → (s.reqs rid).sessionId = some sid →
        s.sessions sid = some l → l.activeUid = some (s.reqs rid).uid →
        (s.reqs rid).mmItems = [] → ∃ l', sessions sid = some l' ∧ l'.activeUid = none) := by
  have hreq : (commitReq ops s rid true).reqs rid =
      { s.reqs rid with res := (ops.cacheReq s.cache (s.reqs rid) true).2 } :=
    Function.update_self ..
  obtain ⟨cache, sessions, aliases, heq, hret, hfalse, hidle⟩ :=
    keepPrefix_cases ops cfg now (commitReq ops s rid true) rid retain
  rw [hreq] at hret hidle
  refine ⟨cache, sessions, aliases, (ops.cacheReq s.cache (s.reqs rid) true).2, ?_,
    hret, hfalse, hidle⟩
  simp only [freeReqResources, h, heq, freeTable, State.setReq, hreq]
  simp only [commitReq, State.setReq, Function.update_idem]

-- ---------------------------------------------------------------------------
-- Aborts
-- ---------------------------------------------------------------------------

/-- All `DecodeManager.abort_req` can do. -/
theorem decodeAbortReq_cases (s : State C H ρ) (uid : Uid) :
    ∃ running, (decodeAbortReq s uid).2 = { s with runningReqs := running } ∧
      (running = s.runningReqs ∨
        ∃ r, (decodeAbortReq s uid).1 = some r ∧ running = s.runningReqs.erase r) ∧
      ∀ r, (decodeAbortReq s uid).1 = some r → r ∈ s.runningReqs ∧ (s.reqs r).uid = uid := by
  unfold decodeAbortReq
  cases hf : s.runningReqs.find? fun r => (s.reqs r).uid == uid with
  | none => exact ⟨s.runningReqs, rfl, Or.inl rfl, fun r h => by cases h⟩
  | some r =>
    have hmem := List.mem_of_find?_eq_some hf
    have huid : (s.reqs r).uid = uid := by simpa using List.find?_some hf
    refine ⟨_, rfl, Or.inr ⟨r, rfl, rfl⟩, ?_⟩
    intro r' hr'
    cases hr'
    exact ⟨hmem, huid⟩

/-- All `abort_req` of the two managers can do: the first queued prompt of the uid
leaves the queue, or a running request of it leaves the running set, or both. The
object answered is the dropped prompt's chunk, or the request that stopped running. -/
theorem abortReq_cases (s : State C H ρ) (uid : Uid) :
    ∃ pending running,
      (abortReq s uid).2 = { s with pendingList := pending, runningReqs := running } ∧
      (pending = s.pendingList ∨ pending = s.pendingList.eraseP fun p => p.uid == uid) ∧
      (running = s.runningReqs ∨
        ∃ r, (abortReq s uid).1 = some r ∧ running = s.runningReqs.erase r) ∧
      ∀ r, (abortReq s uid).1 = some r →
        (∃ l₁ p l₂, s.pendingList = l₁ ++ p :: l₂ ∧ pending = l₁ ++ l₂ ∧ p.uid = uid ∧
          p.chunkedReq = some r) ∨
        r ∈ s.runningReqs ∧ (s.reqs r).uid = uid := by
  unfold abortReq prefillAbortReq
  cases hp : s.pendingList.find? fun p => p.uid == uid with
  | none =>
    obtain ⟨running, heq, hrun, hfound⟩ := decodeAbortReq_cases s uid
    exact ⟨s.pendingList, running, heq, Or.inl rfl, hrun, fun r h => Or.inr (hfound r h)⟩
  | some p =>
    obtain ⟨huid, l₁, l₂, hl, hbefore⟩ := List.find?_eq_some_iff_append.mp hp
    have huid : p.uid = uid := by simpa using huid
    have herase : s.pendingList.eraseP (fun p => p.uid == uid) = l₁ ++ l₂ := by
      rw [hl, List.eraseP_append_right _ (by simpa using hbefore), List.eraseP_cons_of_pos]
      simpa using huid
    cases hc : p.chunkedReq with
    | some r =>
      refine ⟨_, s.runningReqs, by simp [hc], Or.inr rfl, Or.inl rfl, ?_⟩
      intro r' hr'
      simp only [hc, Option.some.injEq] at hr'
      exact Or.inl ⟨l₁, p, l₂, hl, herase, huid, hr' ▸ hc⟩
    | none =>
      obtain ⟨running, heq, hrun, hfound⟩ := decodeAbortReq_cases
        { s with pendingList := s.pendingList.eraseP fun p => p.uid == uid } uid
      refine ⟨_, running, by simpa [hc] using heq, Or.inr rfl, by simpa [hc] using hrun,
        fun r h => Or.inr (hfound r (by simpa [hc] using h))⟩

/-- All that happens to the request a manager dropped: it is marked, or freed
without handing anything to a session, or (no request found) nothing. -/
theorem dropReq_cases (now : Time) (s : State C H ρ) (found : Option ReqId) :
    ((∀ r, found = some r → (s.reqs r).tableIdx = none) ∧ dropReq ops cfg now s found = s) ∨
      (∃ r, found = some r ∧
        dropReq ops cfg now s found = s.setReq r { s.reqs r with aborted := true }) ∨
      ∃ r slot cache aliases res, found = some r ∧ (s.reqs r).tableIdx = some slot ∧
        dropReq ops cfg now s found =
          { s with
            cache := cache
            sessionAliases := aliases
            tableFree := s.tableFree ++ [slot]
            reqs := Function.update s.reqs r
              { s.reqs r with res := res, tableIdx := none } } := by
  cases found with
  | none => exact Or.inl ⟨by simp, rfl⟩
  | some r =>
    by_cases hin : s.inflight r = true
    · exact Or.inr (Or.inl ⟨r, rfl, by simp [dropReq, hin]⟩)
    · have hdef : dropReq ops cfg now s (some r) = freeReqResources ops cfg now s r false := by
        simp [dropReq, hin]
      rw [hdef]
      cases ht : (s.reqs r).tableIdx with
      | none =>
        refine Or.inl ⟨fun r' hr' => ?_, freeReqResources_freed ops cfg now false ht⟩
        rw [← Option.some.inj hr', ht]
      | some slot =>
        obtain ⟨cache, sessions, aliases, res, heq, _, hsess, _⟩ :=
          freeReqResources_cases ops cfg now false ht
        rw [hsess rfl] at heq
        exact Or.inr (Or.inr ⟨r, slot, cache, aliases, res, rfl, ht, heq⟩)

-- ---------------------------------------------------------------------------
-- Steps that build no request object
-- ---------------------------------------------------------------------------

/-- `s'` comes from `s` without a new request object or a new queue entry: the
fixed fields of every object are the same, the queue and the running set only
lost entries, and the batch in flight is the same or drained. -/
structure Ext (s s' : State C H ρ) : Prop where
  nextReq : s'.nextReq = s.nextReq
  static : ∀ rid, (s'.reqs rid).static = (s.reqs rid).static
  pending : s'.pendingList.Sublist s.pendingList
  running : s'.runningReqs.Sublist s.runningReqs
  lastData : s'.lastData = s.lastData ∨ s'.lastData = none
  admitted : s'.admitted = s.admitted
  phase : s'.phase = s.phase

namespace Ext

theorem refl (s : State C H ρ) : Ext s s :=
  ⟨rfl, fun _ => rfl, .refl _, .refl _, Or.inl rfl, rfl, rfl⟩

theorem trans {a b c : State C H ρ} (h₁ : Ext a b) (h₂ : Ext b c) : Ext a c where
  nextReq := h₂.nextReq.trans h₁.nextReq
  static rid := (h₂.static rid).trans (h₁.static rid)
  pending := h₂.pending.trans h₁.pending
  running := h₂.running.trans h₁.running
  lastData := by
    rcases h₂.lastData with h | h
    · rw [h]
      exact h₁.lastData
    · exact Or.inr h
  admitted := h₂.admitted.trans h₁.admitted
  phase := h₂.phase.trans h₁.phase

theorem uid {s s' : State C H ρ} (h : Ext s s') (rid : ReqId) :
    (s'.reqs rid).uid = (s.reqs rid).uid :=
  Req.uid_of_static (h.static rid)

end Ext

/-- Writing back a request object with the same fixed fields keeps them all. -/
theorem static_update {reqs : ReqId → Req ρ} {rid : ReqId} {r : Req ρ}
    (h : r.static = (reqs rid).static) (rid' : ReqId) :
    (Function.update reqs rid r rid').static = (reqs rid').static := by
  by_cases hr : rid' = rid
  · subst hr
    rw [Function.update_self, h]
  · rw [Function.update_of_ne hr]

theorem setReq_ext {s : State C H ρ} {rid : ReqId} {r : Req ρ}
    (h : r.static = (s.reqs rid).static) : Ext s (s.setReq rid r) :=
  ⟨rfl, static_update h, .refl _, .refl _, Or.inl rfl, rfl, rfl⟩

theorem freeReqResources_ext (now : Time) (s : State C H ρ) (rid : ReqId) (retain : Bool) :
    Ext s (freeReqResources ops cfg now s rid retain) := by
  cases ht : (s.reqs rid).tableIdx with
  | none =>
    rw [freeReqResources_freed ops cfg now retain ht]
    exact Ext.refl s
  | some slot =>
    obtain ⟨cache, sessions, aliases, res, heq, -⟩ :=
      freeReqResources_cases ops cfg now retain ht
    rw [heq]
    exact ⟨rfl, static_update rfl, .refl _, .refl _, Or.inl rfl, rfl, rfl⟩

theorem abortReq_ext (s : State C H ρ) (uid : Uid) : Ext s (abortReq s uid).2 := by
  obtain ⟨pending, running, heq, hpend, hrun, -⟩ := abortReq_cases s uid
  rw [heq]
  refine ⟨rfl, fun _ => rfl, ?_, ?_, Or.inl rfl, rfl, rfl⟩
  · rcases hpend with rfl | rfl
    · exact List.Sublist.refl _
    · exact List.eraseP_sublist
  · rcases hrun with rfl | ⟨r, -, rfl⟩
    · exact List.Sublist.refl _
    · exact List.erase_sublist

theorem dropReq_ext (now : Time) (s : State C H ρ) (found : Option ReqId) :
    Ext s (dropReq ops cfg now s found) := by
  rcases dropReq_cases ops cfg now s found with ⟨-, h⟩ | ⟨r, -, h⟩ | ⟨r, slot, c, al, res, -, -, h⟩
  · rw [h]
    exact Ext.refl s
  · rw [h]
    exact setReq_ext rfl
  · rw [h]
    exact ⟨rfl, static_update rfl, .refl _, .refl _, Or.inl rfl, rfl, rfl⟩

theorem abortUid_ext (now : Time) (s : State C H ρ) (uid : Uid) :
    Ext s (abortUid ops cfg now s uid) :=
  (abortReq_ext s uid).trans (dropReq_ext ops cfg now _ _)

theorem ackAbort_ext (s : State C H ρ) (uid : Uid) : Ext s (ackAbort s uid) :=
  ⟨rfl, fun _ => rfl, .refl _, .refl _, Or.inl rfl, rfl, rfl⟩

theorem popLease_ext (s : State C H ρ) (sid : SessionId) (l : SessionLease H) :
    Ext s (popLease ops s sid l) :=
  ⟨rfl, fun _ => rfl, .refl _, .refl _, Or.inl rfl, rfl, rfl⟩

theorem closeSession_ext (now : Time) (s : State C H ρ) (sid : SessionId) :
    Ext s (closeSession ops cfg now s sid) := by
  unfold closeSession
  split
  · exact Ext.refl s
  · split
    · exact popLease_ext ops s sid _
    · exact ((popLease_ext ops s sid _).trans (abortUid_ext ops cfg now _ _)).trans
        (ackAbort_ext _ _)

theorem closeSession?_ext (now : Time) (s : State C H ρ) (sid : Option SessionId) :
    Ext s (closeSession? ops cfg now s sid) := by
  cases sid with
  | none => exact Ext.refl s
  | some sid => exact closeSession_ext ops cfg now s sid

theorem noteAbort_ext (s : State C H ρ) (uid : Uid) : Ext s (noteAbort s uid) :=
  ⟨rfl, fun _ => rfl, .refl _, .refl _, Or.inl rfl, rfl, rfl⟩

theorem processAbort_ext (now : Time) (s : State C H ρ) (uid : Uid)
    (sid : Option SessionId) : Ext s (processAbort ops cfg now s uid sid) :=
  (((noteAbort_ext s uid).trans (closeSession?_ext ops cfg now _ _)).trans
    (abortUid_ext ops cfg now _ uid)).trans (ackAbort_ext _ uid)

theorem send_ext (s : State C H ρ) (rs : List Reply) : Ext s (s.send rs) :=
  ⟨rfl, fun _ => rfl, .refl _, .refl _, Or.inl rfl, rfl, rfl⟩

theorem processClose_ext (now : Time) (s : State C H ρ) (sid : SessionId) (requestId : Nat) :
    Ext s (processClose ops cfg now s sid requestId) := by
  have hclose := closeSession_ext ops cfg now s sid
  unfold processClose
  split
  · exact send_ext s _
  · dsimp only
    split
    · exact hclose.trans (send_ext _ _)
    · split
      · exact hclose.trans (send_ext _ _)
      · exact hclose.trans ⟨rfl, fun _ => rfl, .refl _, .refl _, Or.inl rfl, rfl, rfl⟩

theorem expireSessions_ext (now : Time) (s : State C H ρ) :
    Ext s (expireSessions ops cfg now s) := by
  unfold expireSessions
  generalize expiredSessions now s = sids
  induction sids generalizing s with
  | nil => exact Ext.refl s
  | cons sid sids ih => exact (closeSession_ext ops cfg now s sid).trans (ih _)

theorem flushAbortAcks_ext (s : State C H ρ) : Ext s (flushAbortAcks s) :=
  ⟨rfl, fun _ => rfl, .refl _, .refl _, Or.inl rfl, rfl, rfl⟩

-- ---------------------------------------------------------------------------
-- The drain builds no request object
-- ---------------------------------------------------------------------------

theorem commitReq_ext (s : State C H ρ) (rid : ReqId) (finished : Bool) :
    Ext s (commitReq ops s rid finished) :=
  ⟨rfl, static_update rfl, .refl _, .refl _, Or.inl rfl, rfl, rfl⟩

theorem commitPrompt_ext (isPrefill : Bool) (s : State C H ρ) (rid : ReqId) :
    Ext s (commitPrompt ops isPrefill s rid) := by
  unfold commitPrompt
  split
  · exact commitReq_ext ops s rid false
  · exact Ext.refl s

theorem appendToken_ext (s : State C H ρ) (rid : ReqId) (tok : Token) (finished : Bool) :
    Ext s (appendToken cfg s rid tok finished) := by
  unfold appendToken
  refine setReq_ext ?_
  split <;> rfl

theorem removeRunning_ext (s : State C H ρ) (rid : ReqId) : Ext s (removeRunning s rid) :=
  ⟨rfl, fun _ => rfl, .refl _, List.erase_sublist, Or.inl rfl, rfl, rfl⟩

theorem drainRow_ext (now : Time) (isPrefill : Bool) (acc : DrainAcc C H ρ)
    (row : ReqId × Token) :
    Ext acc.state (drainRow ops cfg now isPrefill acc row).state := by
  unfold drainRow
  dsimp only
  split
  · split
    · exact freeReqResources_ext ops cfg now _ _ _
    · exact Ext.refl _
  · split
    · exact (removeRunning_ext _ _).trans (freeReqResources_ext ops cfg now _ _ _)
    · split
      · exact Ext.refl _
      · split
        · exact (appendToken_ext cfg _ _ _ _).trans
            ((removeRunning_ext _ _).trans (freeReqResources_ext ops cfg now _ _ _))
        · exact (appendToken_ext cfg _ _ _ _).trans (commitPrompt_ext ops _ _ _)

theorem drainRows_ext (now : Time) (s : State C H ρ) (b : Batch) :
    Ext s (drainRows ops cfg now s b).state := by
  have hfold : ∀ (rows : List (ReqId × Token)) (acc : DrainAcc C H ρ),
      Ext acc.state (rows.foldl (drainRow ops cfg now b.isPrefill) acc).state := by
    intro rows
    induction rows with
    | nil => exact fun acc => Ext.refl _
    | cons row rows ih => exact fun acc => (drainRow_ext ops cfg now _ acc row).trans (ih _)
  exact hfold b.rows ⟨s, [], []⟩

theorem processLastData_ext (now : Time) (s : State C H ρ) (b : Option Batch) :
    Ext s (processLastData ops cfg now s b) := by
  cases b with
  | none => exact Ext.refl s
  | some b =>
    exact (drainRows_ext ops cfg now s b).trans
      ⟨rfl, fun _ => rfl, .refl _, .refl _, Or.inl rfl, rfl, rfl⟩

theorem drainInflight_ext (now : Time) (s : State C H ρ) :
    Ext s (drainInflight ops cfg now s) :=
  ((processLastData_ext ops cfg now s s.lastData).trans (flushAbortAcks_ext _)).trans
    ⟨rfl, fun _ => rfl, .refl _, .refl _, Or.inr rfl, rfl, rfl⟩

-- ---------------------------------------------------------------------------
-- Lease service and the prompt handler
-- ---------------------------------------------------------------------------

theorem serve_ext (now : Time) (s : State C H ρ) (e : ServiceEvent E) :
    Ext s (serve ops now s e) := by
  cases e with
  | release sid requireCheckpoint owner =>
    unfold serve releaseSoftSessionHandle
    dsimp only
    split
    · exact Ext.refl s
    · split
      · exact Ext.refl s
      · split
        · exact Ext.refl s
        · exact ⟨rfl, fun _ => rfl, .refl _, .refl _, Or.inl rfl, rfl, rfl⟩
  | restore sid tokens =>
    unfold serve restoreColdSession
    dsimp only
    split
    · exact ⟨rfl, fun _ => rfl, .refl _, .refl _, Or.inl rfl, rfl, rfl⟩
    · exact Ext.refl s
  | cache e => exact ⟨rfl, fun _ => rfl, .refl _, .refl _, Or.inl rfl, rfl, rfl⟩

theorem serves_ext (now : Time) (es : List (ServiceEvent E)) (s : State C H ρ) :
    Ext s (es.foldl (serve ops now) s) := by
  induction es generalizing s with
  | nil => exact Ext.refl s
  | cons e es ih => exact (serve_ext ops now s e).trans (ih _)

theorem bindSession_ext (now : Time) (env : UserEnv E) (s : State C H ρ) (msg : UserMsg) :
    Ext s (bindSession ops now env s msg).1 := by
  have halias : ∀ sid bound, Ext s (noteAlias s msg sid bound) := by
    intro sid bound
    unfold noteAlias
    split
    · exact ⟨rfl, fun _ => rfl, .refl _, .refl _, Or.inl rfl, rfl, rfl⟩
    · exact Ext.refl s
  unfold bindSession
  split
  · exact Ext.refl s
  · split
    · exact send_ext s _
    · dsimp only
      split
      · exact (halias _ _).trans (send_ext _ _)
      · exact ((halias _ _).trans (serves_ext ops now _ _)).trans
          ⟨rfl, fun _ => rfl, .refl _, .refl _, Or.inl rfl, rfl, rfl⟩

theorem restoreSession_ext (now : Time) (env : UserEnv E) (s : State C H ρ) (msg : UserMsg) :
    Ext s (restoreSession ops cfg now env s msg) := by
  have hdrain : ∀ b : Bool, Ext s (if b then drainInflight ops cfg now s else s) := by
    intro b
    cases b with
    | false => exact Ext.refl s
    | true => exact drainInflight_ext ops cfg now s
  unfold restoreSession
  split
  · exact Ext.refl s
  · dsimp only
    split
    · exact hdrain _
    · exact (hdrain _).trans (serve_ext ops now _ (.restore _ _))

theorem idleLease_ext (now : Time) (s : State C H ρ) (sid : SessionId) :
    Ext s (idleLease now s sid) := by
  unfold idleLease
  split
  · exact Ext.refl s
  · exact ⟨rfl, fun _ => rfl, .refl _, .refl _, Or.inl rfl, rfl, rfl⟩

/-- A prompt message either builds nothing, or ends in the queue of a state that built nothing. -/
theorem processUser_cases (now : Time) (env : UserEnv E) (s : State C H ρ) (msg : UserMsg) :
    Ext s (processUser ops cfg now env s msg) ∨
      ∃ s₁ msg', Ext s s₁ ∧ msg'.uid = msg.uid ∧
        processUser ops cfg now env s msg = addOneReq s₁ msg' := by
  unfold processUser
  split
  · exact Or.inl (send_ext s _)
  · split
    · exact Or.inl ⟨rfl, fun _ => rfl, .refl _, .refl _, Or.inl rfl, rfl, rfl⟩
    · have hb := bindSession_ext ops now env s msg
      have hu : ∀ m, (bindSession ops now env s msg).2 = some m → m.uid = msg.uid := by
        intro m hm
        unfold bindSession at hm
        split at hm
        · cases hm
          rfl
        · split at hm
          · cases hm
          · dsimp only at hm
            split at hm
            · cases hm
            · cases hm
              rfl
      split
      · rename_i s₁ heq
        rw [heq] at hb
        exact Or.inl hb
      · rename_i s₁ m heq
        rw [heq] at hb hu
        unfold admitUser
        split
        · exact Or.inl (hb.trans (send_ext _ _))
        · split
          · dsimp only
            split
            · exact Or.inl (hb.trans (send_ext _ _))
            · exact Or.inl ((hb.trans (send_ext _ _)).trans (idleLease_ext _ _ _))
          · split
            · exact Or.inl (hb.trans (send_ext _ _))
            · exact Or.inr ⟨_, clampMaxTokens cfg m,
                hb.trans (restoreSession_ext ops cfg now env s₁ m), hu m rfl, rfl⟩

-- ---------------------------------------------------------------------------
-- The admission loop
-- ---------------------------------------------------------------------------

/-- A request object without the fields only the cache manager reads. -/
def Req.core (r : Req ρ) : Req Unit where
  uid := r.uid
  sessionId := r.sessionId
  samplingParams := r.samplingParams
  mmItems := r.mmItems
  isChunked := r.isChunked
  inputIds := r.inputIds
  cachedLen := r.cachedLen
  deviceLen := r.deviceLen
  maxDeviceLen := r.maxDeviceLen
  outputLen := r.outputLen
  tableIdx := r.tableIdx
  toolcallAnchorLen := r.toolcallAnchorLen
  aborted := r.aborted
  res := ()

/-- `s'` differs from `s` in the cache and in cache-owned request fields only. -/
def CacheOnly (s s' : State C H ρ) : Prop :=
  ∃ cache reqs, s' = { s with cache := cache, reqs := reqs } ∧
    ∀ rid, (reqs rid).core = (s.reqs rid).core

theorem CacheOnly.refl (s : State C H ρ) : CacheOnly s s :=
  ⟨s.cache, s.reqs, rfl, fun _ => rfl⟩

theorem CacheOnly.core {s s' : State C H ρ} (h : CacheOnly s s') (rid : ReqId) :
    (s'.reqs rid).core = (s.reqs rid).core := by
  obtain ⟨cache, reqs, rfl, hcore⟩ := h
  exact hcore rid

theorem core_update_res {reqs : ReqId → Req ρ} (rid : ReqId) (res : ρ) (rid' : ReqId) :
    (Function.update reqs rid { reqs rid with res := res } rid').core = (reqs rid').core := by
  by_cases hr : rid' = rid
  · subst hr
    rw [Function.update_self]
    rfl
  · rw [Function.update_of_ne hr]

theorem cacheEvents_cacheOnly (s : State C H ρ) (events : List E) :
    CacheOnly s (cacheEvents ops s events) :=
  ⟨_, s.reqs, rfl, fun _ => rfl⟩

theorem commitLane_cacheOnly {s s' : State C H ρ} (h : CacheOnly s s') (p : PendingReq)
    (old : ReqId) : CacheOnly s (commitLane ops s' p old) := by
  obtain ⟨cache, reqs, rfl, hcore⟩ := h
  refine ⟨_, _, rfl, fun rid => ?_⟩
  rw [core_update_res]
  exact hcore rid

/-- What the chunk of a seated lane starts from: for a continuation the length
and the table slot of the chunk before it, for a fresh prompt a free slot. -/
inductive LaneSource (s : State C H ρ) (p : PendingReq) :
    Nat → Option Nat → List Nat → Prop
  | continuation (old : ReqId) (h : p.chunkedReq = some old) :
      LaneSource s p (s.reqs old).cachedLen (s.reqs old).tableIdx s.tableFree
  | fresh (slot cachedLen : Nat) (h : p.chunkedReq = none)
      (hslot : s.tableFree.getLast? = some slot) :
      LaneSource s p cachedLen (some slot) s.tableFree.dropLast

/-- All one iteration of the admission loop can do. -/
inductive LaneStep (acc : PassAcc C H ρ) (p : PendingReq) : PassAcc C H ρ → Prop
  | kept (s : State C H ρ) (hs : CacheOnly acc.state s) :
      LaneStep acc p { acc with state := s, remaining := acc.remaining ++ [p] }
  | seated (s : State C H ρ) (hs : CacheOnly acc.state s)
      (cache : C) (cachedLen chunkEnd : Nat) (tableIdx : Option Nat) (tableFree : List Nat)
      (res : ρ) (hsrc : LaneSource acc.state p cachedLen tableIdx tableFree)
      (hlo : cachedLen < chunkEnd) (hhi : chunkEnd ≤ p.inputLen) :
      LaneStep acc p
        { state := { s with
            cache := cache
            tableFree := tableFree
            nextReq := acc.state.nextReq + 1
            reqs := Function.update s.reqs acc.state.nextReq
              (newReq p cachedLen chunkEnd tableIdx res) }
          seated := acc.seated ++ [acc.state.nextReq]
          chunked := if chunkEnd < p.inputLen then
              acc.chunked ++ [{ p with chunkedReq := some acc.state.nextReq }]
            else acc.chunked
          remaining := acc.remaining }

theorem passLane_cases {acc acc' : PassAcc C H ρ} {p : PendingReq} {inp : LaneInput E}
    (h : passLane ops acc p inp = some acc') : LaneStep acc p acc' := by
  have hev := cacheEvents_cacheOnly ops acc.state inp.events
  unfold passLane at h
  dsimp only at h
  split at h
  · cases h
    exact .kept _ hev
  · split at h
    · cases h
      exact .kept _ hev
    · cases h
      exact .kept _ (commitLane_cacheOnly ops hev p _)
  · rename_i chunkEnd _
    unfold seatLane laneStart at h
    cases hc : p.chunkedReq with
    | some old =>
      -- the next chunk of a prompt that has begun
      simp only [hc] at h
      split at h
      · cases h
      · rename_i s rid heq
        split at heq
        · rename_i hlen
          cases heq
          cases h
          have hs := commitLane_cacheOnly ops hev p old
          have hcore := hs.core old
          have hlen0 : (acc.state.reqs old).cachedLen =
              ((commitLane ops (cacheEvents ops acc.state inp.events) p old).reqs old).cachedLen :=
            (congrArg Req.cachedLen hcore).symm
          have hidx0 : (acc.state.reqs old).tableIdx =
              ((commitLane ops (cacheEvents ops acc.state inp.events) p old).reqs old).tableIdx :=
            (congrArg Req.tableIdx hcore).symm
          have hsrc : LaneSource acc.state p _ _ _ := .continuation old hc
          rw [hlen0, hidx0] at hsrc
          exact .seated _ hs _ _ chunkEnd _ _ _ hsrc hlen.1 hlen.2
        · cases heq
    | none =>
      -- a prompt that begins takes a slot of the table
      simp only [hc] at h
      split at h
      · cases h
      · rename_i s rid heq
        unfold admitLane at heq
        cases hslot : (cacheEvents ops acc.state inp.events).tableFree.getLast? with
        | none =>
          simp only [hslot] at heq
          cases heq
        | some slot =>
          simp only [hslot] at heq
          cases hadm : ops.tryAllocateOne (cacheEvents ops acc.state inp.events).cache p slot with
          | none =>
            simp only [hadm] at heq
            cases heq
          | some out =>
            obtain ⟨cache, cachedLen, res⟩ := out
            simp only [hadm] at heq
            split at heq
            · rename_i hlen
              cases heq
              cases h
              exact .seated _ hev cache cachedLen chunkEnd (some slot) _ res
                (.fresh slot cachedLen hc hslot) hlen.1 hlen.2
            · cases heq

end FreeToken.Scheduler
