import FreeToken.Scheduler.LeaseInvariant

/-!
# A busy lease has a live request

A lease is busy with `u` from the moment a prompt of uid `u` takes it until that
turn's resources are handed back. The handlers leave a lease busy with nothing
behind it at four places, all listed in `LeaseStepOk`: a prompt refused after it
took the lease (images without an encoder, a hidden-state probe the engine cannot
honour), a finished turn with images (its lease is skipped by
`_free_req_resources`), and an abort that does not name its request's session.

`busy_leases_live` is the run theorem under that condition, for both loops.
-/

namespace FreeToken.Scheduler

variable {C H ρ E : Type} (ops : CacheOps C H ρ E) (cfg : Config)

-- ---------------------------------------------------------------------------
-- The condition on the steps
-- ---------------------------------------------------------------------------

/-- The handler gets as far as taking the lease the prompt is bound to. -/
structure TakesLease (s : State C H ρ) (msg : UserMsg) (sid : SessionId) : Prop where
  unsealed : cfg.sealed = false
  unknown  : msg.uid ∉ s.abortTombstones
  valid    : ¬ (sid = [] ∨ 256 < sid.length)
  idle     : isBusy s (boundSession s msg sid) = false

/-- A prompt that takes a lease is not refused for its images or its probe, the
drain its restore may need is sound, and its uid (a fresh one, the front end
counts them) is not a turn in flight. -/
structure AcceptedTurn (env : UserEnv E) (s : State C H ρ) (msg : UserMsg) : Prop where
  images : msg.mmItems = [] ∨ cfg.hasEncoder = true
  probe  : cfg.maxSeqLen ≤ msg.inputIds.length ∨ hiddenStatesRefusal cfg msg = none
  drain  : env.growDrain = true → msg.inputIds.length < cfg.maxSeqLen →
             DrainOk cfg s s.lastData
  fresh  : ∀ sid, ¬ Busy s sid msg.uid

def UserOk (env : UserEnv E) (s : State C H ρ) (msg : UserMsg) : Prop :=
  ∀ sid, msg.sessionId = some sid → TakesLease cfg s msg sid → AcceptedTurn cfg env s msg

/-- The condition under which a step keeps every busy lease live. -/
def LeaseStepOk (overlap : Bool) (s : State C H ρ) : Step E → Prop
  | .msg _ (.user msg) env => UserOk cfg env s msg
  | .msg _ (.abort u sid) _ => ∀ target, Busy s target u → abortedSession s u sid = some target
  | .drainInflight _ => DrainOk cfg s s.lastData
  | .drain _ =>
    match s.phase with
    | .launched b => DrainOk cfg s (if overlap then s.lastData else b)
    | _ => True
  | _ => True

-- ---------------------------------------------------------------------------
-- A client prompt
-- ---------------------------------------------------------------------------

/-- The invariant at a state between two steps. -/
def TopInv (x : Option (SessionId × Uid)) (s : State C H ρ) : Prop :=
  LeaseInv x (scheduledReqs s) (undrained s) s

theorem launchedReqs_congr {s s' : State C H ρ} (h : s'.phase = s.phase) :
    launchedReqs s' = launchedReqs s := by
  rw [launchedReqs, launchedReqs, h]

theorem scheduledReqs_congr {s s' : State C H ρ} (h : s'.phase = s.phase) :
    scheduledReqs s' = scheduledReqs s := by
  rw [scheduledReqs, scheduledReqs, h]

theorem undrained_congr {s s' : State C H ρ} (hphase : s'.phase = s.phase)
    (hlast : s'.lastData = s.lastData) : undrained s' = undrained s := by
  rw [undrained, undrained, launchedReqs_congr hphase, lastReqs, lastReqs, hlast]

/-- Draining early empties the last batch; the phase stays. -/
theorem topInv_drainInflight {x : Option (SessionId × Uid)} {s : State C H ρ} (now : Time)
    (hwf : Wf s) (h : TopInv x s) (hok : DrainOkFor cfg x s s.lastData) :
    TopInv x (drainInflight ops cfg now s) ∧
      ∀ sid u, Busy (drainInflight ops cfg now s) sid u → Busy s sid u := by
  have hb : BatchOk s (s.lastData.elim [] Batch.reqs) := lastReqs_elim s ▸ hwf.lastData
  have h' : LeaseInv x (scheduledReqs s) (s.lastData.elim [] Batch.reqs ++ launchedReqs s) s := by
    rw [← lastReqs_elim]
    exact h
  obtain ⟨hinv, hbusy⟩ := leaseInv_processLastData ops cfg now hwf s.lastData hb h' hok
  have hphase : (drainInflight ops cfg now s).phase = s.phase :=
    (drainInflight_ext ops cfg now s).phase
  refine ⟨?_, hbusy⟩
  rw [TopInv, scheduledReqs_congr hphase, undrained, launchedReqs_congr hphase]
  exact hinv.busy (fun _ _ hb => hb) rfl rfl rfl rfl rfl

theorem serve_frame (now : Time) (s : State C H ρ) (e : ServiceEvent E) :
    (∀ sid u, Busy (serve ops now s e) sid u → Busy s sid u) ∧
      ∃ cache sessions,
        serve ops now s e = { s with cache := cache, sessions := sessions } := by
  -- rewriting a lease without its `activeUid` makes no session busy
  have hset : ∀ (cache : C) (sid₀ : SessionId) (l l' : SessionLease H),
      s.sessions sid₀ = some l → l'.activeUid = l.activeUid →
      ∀ sid u, Busy ({ s with cache := cache }.setSession sid₀ l') sid u → Busy s sid u := by
    rintro cache sid₀ l l' hl hact sid u ⟨m, hm, hu⟩
    by_cases hs : sid = sid₀
    · subst hs
      have hself : Function.update s.sessions sid (some l') sid = some l' :=
        Function.update_self ..
      have hm' : l' = m := Option.some.inj (hself.symm.trans hm)
      exact ⟨l, hl, by rw [← hact, hm', hu]⟩
    · have hne : Function.update s.sessions sid₀ (some l') sid = s.sessions sid :=
        Function.update_of_ne hs ..
      exact ⟨m, hne.symm.trans hm, hu⟩
  cases e with
  | release sid requireCheckpoint owner =>
    unfold serve releaseSoftSessionHandle
    dsimp only
    split
    · exact ⟨fun _ _ hb => hb, s.cache, s.sessions, rfl⟩
    · rename_i l hl
      split
      · exact ⟨fun _ _ hb => hb, s.cache, s.sessions, rfl⟩
      · split
        · exact ⟨fun _ _ hb => hb, s.cache, s.sessions, rfl⟩
        · exact ⟨hset _ _ l _ hl rfl, _, _, rfl⟩
  | restore sid tokens =>
    unfold serve restoreColdSession
    dsimp only
    split
    · rename_i l cache h hl _
      exact ⟨hset _ _ l _ hl rfl, _, _, rfl⟩
    · exact ⟨fun _ _ hb => hb, s.cache, s.sessions, rfl⟩
  | cache e => exact ⟨fun _ _ hb => hb, _, s.sessions, rfl⟩

theorem topInv_serve {x : Option (SessionId × Uid)} {s : State C H ρ} (now : Time)
    (h : TopInv x s) (e : ServiceEvent E) : TopInv x (serve ops now s e) := by
  obtain ⟨hbusy, cache, sessions, heq⟩ := serve_frame ops now s e
  rw [heq] at hbusy ⊢
  exact h.busy hbusy rfl rfl rfl rfl rfl

theorem topInv_serves {x : Option (SessionId × Uid)} (now : Time)
    (es : List (ServiceEvent E)) {s : State C H ρ} (h : TopInv x s) :
    TopInv x (es.foldl (serve ops now) s) ∧
      (∀ sid u, Busy (es.foldl (serve ops now) s) sid u → Busy s sid u) ∧
      ∃ cache sessions, es.foldl (serve ops now) s =
        { s with cache := cache, sessions := sessions } := by
  induction es generalizing s with
  | nil => exact ⟨h, fun _ _ hb => hb, s.cache, s.sessions, rfl⟩
  | cons e es ih =>
    obtain ⟨hbusy, cache, sessions, heq⟩ := serve_frame ops now s e
    obtain ⟨hinv, hbusy', cache', sessions', heq'⟩ := ih (topInv_serve ops now h e)
    refine ⟨hinv, fun sid u hb => hbusy sid u (hbusy' sid u hb), cache', sessions', ?_⟩
    rw [List.foldl_cons, heq', heq]

theorem busy_takeLease {now : Time} {s : State C H ρ} {bound : SessionId} {msg : UserMsg}
    {sid : SessionId} {u : Uid} (hb : Busy (takeLease now s bound msg) sid u) :
    sid = bound ∧ u = msg.uid ∨ sid ≠ bound ∧ Busy s sid u := by
  obtain ⟨l, hl, hu⟩ := hb
  by_cases hs : sid = bound
  · subst hs
    have hself : (takeLease now s sid msg).sessions sid = _ := Function.update_self ..
    rw [hself, Option.some.injEq] at hl
    rw [← hl] at hu
    exact Or.inl ⟨rfl, (Option.some.inj hu).symm⟩
  · exact Or.inr ⟨hs, l, (Function.update_of_ne hs ..).symm.trans hl, hu⟩

theorem topInv_takeLease {s : State C H ρ} (now : Time) (h : TopInv none s)
    (bound : SessionId) (msg : UserMsg) (hfresh : ∀ sid, ¬ Busy s sid msg.uid) :
    TopInv (some (bound, msg.uid)) (takeLease now s bound msg) := by
  refine ⟨h.chunkOwned, h.finished, h.decodes, h.placed, ?_, ?_⟩
  · intro sid sid' u hb hb'
    rcases busy_takeLease hb with ⟨rfl, rfl⟩ | ⟨-, hb⟩
    · rcases busy_takeLease hb' with ⟨rfl, -⟩ | ⟨-, hb'⟩
      · rfl
      · exact absurd hb' (hfresh sid')
    · rcases busy_takeLease hb' with ⟨-, rfl⟩ | ⟨-, hb'⟩
      · exact absurd hb (hfresh sid)
      · exact h.distinct sid sid' u hb hb'
  · intro sid u hb hx
    rcases busy_takeLease hb with ⟨rfl, rfl⟩ | ⟨-, hb⟩
    · exact absurd rfl hx
    · exact (h.served sid u hb (by simp)).congr rfl rfl rfl

/-- The turn a bound prompt is about to be queued for. -/
def turnOf (msg : UserMsg) : Option (SessionId × Uid) :=
  msg.sessionId.map fun sid => (sid, msg.uid)

/-- What binding a prompt to its session leaves for the rest of the handler. -/
structure Bound (env : UserEnv E) (s s₁ : State C H ρ) (m : UserMsg) : Prop where
  inv      : TopInv (turnOf m) s₁
  busy     : ∀ sid u, Busy s₁ sid u → some (sid, u) ≠ turnOf m → Busy s sid u
  reqs     : s₁.reqs = s.reqs
  finished : s₁.finishedReqs = s.finishedReqs
  lastData : s₁.lastData = s.lastData
  accepted : m.sessionId.isSome = true → AcceptedTurn cfg env s m

theorem noteAlias_eq (s : State C H ρ) (msg : UserMsg) (sid bound : SessionId) :
    ∃ aliases, noteAlias s msg sid bound = { s with sessionAliases := aliases } := by
  unfold noteAlias
  split
  · exact ⟨_, rfl⟩
  · exact ⟨s.sessionAliases, rfl⟩

theorem topInv_bindSession {s : State C H ρ} (now : Time) (env : UserEnv E) {msg : UserMsg}
    (h : TopInv none s) (hsealed : cfg.sealed = false) (hseen : msg.uid ∉ s.abortTombstones)
    (hok : UserOk cfg env s msg) :
    ((bindSession ops now env s msg).2 = none → TopInv none (bindSession ops now env s msg).1) ∧
      ∀ m, (bindSession ops now env s msg).2 = some m →
        Bound cfg env s (bindSession ops now env s msg).1 m := by
  unfold bindSession
  cases hsid : msg.sessionId with
  | none =>
    refine ⟨fun hf => (by cases hf), ?_⟩
    rintro m hm
    cases hm
    have hturn : turnOf msg = none := by rw [turnOf, hsid, Option.map_none]
    exact ⟨hturn ▸ h, fun _ _ hb _ => hb, rfl, rfl, rfl, fun hs => by
      rw [hsid] at hs
      cases hs⟩
  | some sid =>
    dsimp only
    split
    · -- an id that is not valid is answered with an error
      refine ⟨fun _ => ?_, fun m hm => by cases hm⟩
      exact h.busy (fun _ _ hb => hb) rfl rfl rfl rfl rfl
    · rename_i hvalid
      obtain ⟨aliases, halias⟩ := noteAlias_eq s msg sid (boundSession s msg sid)
      rw [halias]
      have h₁ : TopInv none { s with sessionAliases := aliases } :=
        h.busy (fun _ _ hb => hb) rfl rfl rfl rfl rfl
      split
      · -- and so is a turn of a busy session
        refine ⟨fun _ => ?_, fun m hm => by cases hm⟩
        exact h₁.busy (fun _ _ hb => hb) rfl rfl rfl rfl rfl
      · rename_i hbusy
        refine ⟨fun hf => (by cases hf), ?_⟩
        rintro m hm
        cases hm
        have hfree : isBusy s (boundSession s msg sid) = false := by
          rw [Bool.not_eq_true] at hbusy
          exact hbusy
        have hturn := hok sid hsid ⟨hsealed, hseen, hvalid, hfree⟩
        obtain ⟨h₂, hback, cache, sessions, heq⟩ := topInv_serves ops now env.reclaim h₁
        have hfresh' : ∀ sid', ¬ Busy (env.reclaim.foldl (serve ops now)
            { s with sessionAliases := aliases }) sid' msg.uid :=
          fun sid' hb => hturn.fresh sid' (hback sid' _ hb)
        refine ⟨topInv_takeLease now h₂ _ msg hfresh', ?_, ?_, ?_, ?_,
          fun _ => ⟨hturn.images, hturn.probe, hturn.drain, hturn.fresh⟩⟩
        · intro sid' u hb hx
          rcases busy_takeLease hb with ⟨rfl, rfl⟩ | ⟨-, hb⟩
          · exact absurd rfl hx
          · exact hback sid' u hb
        all_goals
          rw [heq]
          rfl

theorem busy_idleLease {now : Time} {s : State C H ρ} {sid sid' : SessionId} {u : Uid}
    (hb : Busy (idleLease now s sid) sid' u) : sid' ≠ sid ∧ Busy s sid' u := by
  unfold idleLease at hb
  split at hb
  · rename_i hnone
    refine ⟨?_, hb⟩
    rintro rfl
    obtain ⟨l, hl, -⟩ := hb
    rw [hnone] at hl
    cases hl
  · obtain ⟨l, hl, hu⟩ := hb
    by_cases hs : sid' = sid
    · subst hs
      unfold State.setSession at hl
      dsimp only at hl
      rw [Function.update_self, Option.some.injEq] at hl
      rw [← hl] at hu
      cases hu
    · exact ⟨hs, l, (Function.update_of_ne hs ..).symm.trans hl, hu⟩

theorem topInv_idleLease {now : Time} {s : State C H ρ} {sid : SessionId} {u : Uid}
    (h : TopInv (some (sid, u)) s) : TopInv none (idleLease now s sid) := by
  have hframe : ∃ sessions, idleLease now s sid = { s with sessions := sessions } := by
    unfold idleLease
    split
    · exact ⟨s.sessions, rfl⟩
    · exact ⟨_, rfl⟩
  obtain ⟨sessions, heq⟩ := hframe
  have hbusy : ∀ sid' u', Busy (idleLease now s sid) sid' u' → sid' ≠ sid ∧ Busy s sid' u' :=
    fun _ _ => busy_idleLease
  rw [heq] at hbusy ⊢
  refine ⟨h.chunkOwned, h.finished, h.decodes, h.placed,
    fun a b u hb hb' => h.distinct a b u (hbusy a u hb).2 (hbusy b u hb').2, ?_⟩
  intro sid' u' hb _
  obtain ⟨hne, hb'⟩ := hbusy sid' u' hb
  refine (h.served sid' u' hb' ?_).congr rfl rfl rfl
  rintro heq'
  cases heq'
  exact hne rfl

/-- The prompt joins the queue, and with it the lease it took is served. -/
theorem topInv_addOneReq {s : State C H ρ} {msg : UserMsg} (h : TopInv (turnOf msg) s) :
    TopInv none (addOneReq s msg) := by
  refine ⟨?_, h.finished, h.decodes, h.placed, h.distinct, ?_⟩
  · intro p hp r hpr
    rcases List.mem_append.mp hp with hp | hp
    · exact h.chunkOwned p hp r hpr
    · rw [List.mem_singleton] at hp
      subst hp
      cases hpr
  · intro sid u hb _
    by_cases hx : some (sid, u) = turnOf msg
    · left
      unfold turnOf at hx
      obtain ⟨sid', hsid, heq⟩ := Option.map_eq_some_iff.mp hx.symm
      cases heq
      exact ⟨_, List.mem_append_right _ (List.mem_singleton_self _), rfl, hsid⟩
    · rcases h.served sid u hb hx with ⟨p, hp, hpu, hps⟩ | ⟨r, hr⟩
      · exact Or.inl ⟨p, List.mem_append_left _ hp, hpu, hps⟩
      · exact Or.inr ⟨r, hr.uid, hr.sessionId, hr.unfinished, hr.place⟩

theorem topInv_restoreSession {s s₁ : State C H ρ} (now : Time) (env : UserEnv E)
    {m : UserMsg} (hwf : Wf s₁) (hb : Bound cfg env s s₁ m)
    (hlen : m.inputIds.length < cfg.maxSeqLen) :
    TopInv (turnOf m) (restoreSession ops cfg now env s₁ m) := by
  have hdrain : m.sessionId.isSome = true →
      TopInv (turnOf m) (if env.growDrain then drainInflight ops cfg now s₁ else s₁) := by
    intro hsome
    cases hg : env.growDrain with
    | false => exact hb.inv
    | true =>
      refine (topInv_drainInflight ops cfg now hwf hb.inv ?_).1
      rw [hb.lastData]
      intro row hm hlive hfin sid hsid hx hbusy
      have hlive' : RowLive s row.1 :=
        ⟨hb.reqs ▸ hlive.whole, hb.reqs ▸ hlive.running, hb.finished ▸ hlive.unended⟩
      unfold rowFinishes at hfin
      rw [hb.reqs] at hfin hsid hx hbusy ⊢
      exact (hb.accepted hsome).drain hg hlen row hm hlive' hfin sid hsid
        (hb.busy sid _ hbusy hx)
  unfold restoreSession
  split
  · exact hb.inv
  · rename_i hs
    dsimp only
    split
    · exact hdrain (by rw [hs]; rfl)
    · exact topInv_serve ops now (hdrain (by rw [hs]; rfl)) (.restore _ _)

theorem topInv_processUser {s : State C H ρ} (now : Time) (env : UserEnv E) {msg : UserMsg}
    (hwf : Wf s) (h : TopInv none s) (hok : UserOk cfg env s msg) :
    TopInv none (processUser ops cfg now env s msg) := by
  have hwf₁ := hwf.ext (bindSession_ext ops now env s msg)
  unfold processUser
  split
  · exact h.busy (fun _ _ hb => hb) rfl rfl rfl rfl rfl
  · rename_i hsealed
    split
    · exact h.busy (fun _ _ hb => hb) rfl rfl rfl rfl rfl
    · rename_i hseen
      rw [Bool.not_eq_true] at hsealed
      obtain ⟨hrefused, hbound⟩ := topInv_bindSession ops cfg now env h hsealed hseen hok
      split
      · rename_i s₁ heq
        rw [heq] at hrefused
        exact hrefused rfl
      · rename_i s₁ m heq
        rw [heq] at hbound hwf₁
        have hb := hbound m rfl
        have hinv : TopInv (turnOf m) s₁ := hb.inv
        unfold admitUser
        split
        · rename_i himg
          -- only a prompt without a session can be refused for its images here
          cases hs : m.sessionId with
          | none =>
            have hturn : turnOf m = none := by rw [turnOf, hs, Option.map_none]
            rw [hturn] at hinv
            exact hinv.busy (fun _ _ hb => hb) rfl rfl rfl rfl rfl
          | some sid =>
            rcases (hb.accepted (by rw [hs]; rfl)).images with hmm | henc
            · exact absurd hmm himg.1
            · rw [himg.2] at henc
              cases henc
        · split
          · dsimp only
            split
            · rename_i hs
              have hturn : turnOf m = none := by rw [turnOf, hs, Option.map_none]
              rw [hturn] at hinv
              exact hinv.busy (fun _ _ hb => hb) rfl rfl rfl rfl rfl
            · rename_i sid hs
              have hturn : turnOf m = some (sid, m.uid) := by rw [turnOf, hs, Option.map_some]
              rw [hturn] at hinv
              have hsent : TopInv (some (sid, m.uid)) (s₁.send
                  [.error m.uid (.promptTooLong m.inputIds.length cfg.maxSeqLen)]) :=
                hinv.busy (fun _ _ hb => hb) rfl rfl rfl rfl rfl
              exact topInv_idleLease hsent
          · rename_i hlen
            split
            · rename_i e hprobe
              cases hs : m.sessionId with
              | none =>
                have hturn : turnOf m = none := by rw [turnOf, hs, Option.map_none]
                rw [hturn] at hinv
                exact hinv.busy (fun _ _ hb => hb) rfl rfl rfl rfl rfl
              | some sid =>
                rcases (hb.accepted (by rw [hs]; rfl)).probe with hlong | hnone
                · exact absurd hlong hlen
                · rw [hprobe] at hnone
                  cases hnone
            · have hrestored := topInv_restoreSession ops cfg now env hwf₁ hb
                (Nat.lt_of_not_le hlen)
              have hturn : turnOf (clampMaxTokens cfg m) = turnOf m := rfl
              rw [← hturn] at hrestored
              exact topInv_addOneReq hrestored

-- ---------------------------------------------------------------------------
-- The pass
-- ---------------------------------------------------------------------------

/-- A queued prompt in the middle of a pass: still queued, or seated as a whole. -/
def Covered (acc : PassAcc C H ρ) (rest : List PendingReq) (p : PendingReq) : Prop :=
  (∃ q, (q ∈ acc.chunked ∨ q ∈ acc.remaining ++ rest) ∧
      q.uid = p.uid ∧ q.sessionId = p.sessionId) ∨
    ∃ r ∈ acc.seated, (acc.state.reqs r).uid = p.uid ∧
      (acc.state.reqs r).sessionId = p.sessionId ∧ Unfinished (acc.state.reqs r)

/-- The admission loop for the lease invariant: leases and old requests as they
were, every prompt covered, and the chunks it built own their table slot. -/
structure PassLease (s₀ : State C H ρ) (acc : PassAcc C H ρ) (rest : List PendingReq) :
    Prop where
  wf       : PassWf s₀ acc rest
  core     : ∀ r < s₀.nextReq, (acc.state.reqs r).core = (s₀.reqs r).core
  sessions : acc.state.sessions = s₀.sessions
  finished : acc.state.finishedReqs = s₀.finishedReqs
  owned    : ∀ p ∈ acc.chunked, ∀ r, p.chunkedReq = some r →
               (acc.state.reqs r).tableIdx ≠ none ∧ (acc.state.reqs r).aborted = false
  covered  : ∀ p ∈ s₀.pendingList, Covered acc rest p

theorem unfinished_of_core {r r' : Req ρ} (h : r'.core = r.core) (hr : Unfinished r) :
    Unfinished r' where
  whole := (congrArg Req.isChunked h).trans hr.whole
  owns hnone := hr.owns ((congrArg Req.tableIdx h).symm.trans hnone)
  kept := (congrArg Req.aborted h).trans hr.kept

theorem passLease_step {s₀ : State C H ρ} (hwf : Wf s₀)
    (hown : ∀ p ∈ s₀.pendingList, ∀ r, p.chunkedReq = some r →
      (s₀.reqs r).tableIdx ≠ none ∧ (s₀.reqs r).aborted = false)
    {acc acc' : PassAcc C H ρ} {p : PendingReq} {ps : List PendingReq}
    (h : PassLease s₀ acc (p :: ps)) (hs : LaneStep acc p acc') : PassLease s₀ acc' ps := by
  have hwf' := passWf_step h.wf hs
  have hp : p ∈ s₀.pendingList :=
    h.wf.remaining.subset (List.mem_append_right _ (List.mem_cons_self ..))
  cases hs with
  | kept s hs =>
    have hcore := hs.core
    obtain ⟨cache, reqs, rfl, -⟩ := hs
    refine ⟨hwf', fun r hr => (hcore r).trans (h.core r hr), h.sessions, h.finished, ?_, ?_⟩
    · intro q hq r hr
      obtain ⟨htab, hab⟩ := h.owned q hq r hr
      exact ⟨fun hnone => htab ((congrArg Req.tableIdx (hcore r)).symm.trans hnone),
        (congrArg Req.aborted (hcore r)).trans hab⟩
    · intro q hq
      rcases h.covered q hq with ⟨q', hq', hu, hsid⟩ | ⟨r, hr, hu, hsid, hun⟩
      · refine Or.inl ⟨q', hq'.imp id fun hm => ?_, hu, hsid⟩
        rw [List.append_assoc]
        exact hm
      · exact Or.inr ⟨r, hr, (congrArg Req.uid (hcore r)).trans hu,
          (congrArg Req.sessionId (hcore r)).trans hsid, unfinished_of_core (hcore r) hun⟩
  | seated s hs cache cachedLen chunkEnd tableIdx tableFree res hsrc hlo hhi =>
    have hcore := hs.core
    obtain ⟨cache', reqs, rfl, -⟩ := hs
    have hold : ∀ r, r ≠ acc.state.nextReq → (Function.update reqs acc.state.nextReq
        (newReq p cachedLen chunkEnd tableIdx res) r).core = (acc.state.reqs r).core := by
      intro r hr
      rw [Function.update_of_ne hr]
      exact hcore r
    have hself : Function.update reqs acc.state.nextReq
        (newReq p cachedLen chunkEnd tableIdx res) acc.state.nextReq =
        newReq p cachedLen chunkEnd tableIdx res := Function.update_self ..
    -- the new object owns a slot: a free one, or the one of the chunk before it
    have hslot : tableIdx ≠ none := by
      cases hsrc with
      | fresh slot _ _ _ => simp
      | continuation old hc =>
        intro hnone
        have hcore₀ := h.core old (hwf.chunk p hp old hc).lt
        exact (hown p hp old hc).1 ((congrArg Req.tableIdx hcore₀).symm.trans hnone)
    refine ⟨hwf', ?_, h.sessions, h.finished, ?_, ?_⟩
    · intro r hr
      exact (hold r (Nat.ne_of_lt (Nat.lt_of_lt_of_le hr h.wf.nextReq))).trans (h.core r hr)
    · intro q hq r hr
      have hprev : q ∈ acc.chunked → (Function.update reqs acc.state.nextReq
          (newReq p cachedLen chunkEnd tableIdx res) r).tableIdx ≠ none ∧
          (Function.update reqs acc.state.nextReq
            (newReq p cachedLen chunkEnd tableIdx res) r).aborted = false := by
        intro hq
        obtain ⟨htab, hab⟩ := h.owned q hq r hr
        have hne : r ≠ acc.state.nextReq := Nat.ne_of_lt (h.wf.chunked q hq r hr).lt
        exact ⟨fun hnone => htab ((congrArg Req.tableIdx (hold r hne)).symm.trans hnone),
          (congrArg Req.aborted (hold r hne)).trans hab⟩
      dsimp only at hq
      split at hq
      · rcases List.mem_append.mp hq with hq | hq
        · exact hprev hq
        · rw [List.mem_singleton] at hq
          subst hq
          cases hr
          dsimp only
          rw [hself]
          exact ⟨hslot, rfl⟩
      · exact hprev hq
    · intro q hq
      have hprev : ∀ r ∈ acc.seated, r ≠ acc.state.nextReq :=
        fun r hr => Nat.ne_of_lt (h.wf.seated.2 r hr).2
      rcases h.covered q hq with ⟨q', hq', hu, hsid⟩ | ⟨r, hr, hu, hsid, hun⟩
      · rcases hq' with hq' | hq'
        · refine Or.inl ⟨q', Or.inl ?_, hu, hsid⟩
          dsimp only
          split
          · exact List.mem_append_left _ hq'
          · exact hq'
        · rcases List.mem_append.mp hq' with hq' | hq'
          · exact Or.inl ⟨q', Or.inr (List.mem_append_left _ hq'), hu, hsid⟩
          · rcases List.mem_cons.mp hq' with rfl | hq'
            · by_cases hpart : chunkEnd < q'.inputLen
              · left
                refine ⟨{ q' with chunkedReq := some acc.state.nextReq }, Or.inl ?_, hu, hsid⟩
                dsimp only
                rw [if_pos hpart]
                exact List.mem_append_right _ (List.mem_singleton_self _)
              · right
                refine ⟨acc.state.nextReq,
                  List.mem_append_right _ (List.mem_singleton_self _), ?_, ?_, ?_⟩
                · dsimp only
                  rw [hself]
                  exact hu
                · dsimp only
                  rw [hself]
                  exact hsid
                · dsimp only
                  rw [hself]
                  exact ⟨decide_eq_false hpart, hslot, rfl⟩
            · exact Or.inl ⟨q', Or.inr (List.mem_append_right _ hq'), hu, hsid⟩
      · have hc := hold r (hprev r hr)
        exact Or.inr ⟨r, List.mem_append_left _ hr, (congrArg Req.uid hc).trans hu,
          (congrArg Req.sessionId hc).trans hsid, unfinished_of_core hc hun⟩

theorem passLease_init (s : State C H ρ) : PassLease s ⟨s, [], [], []⟩ s.pendingList where
  wf := passWf_init s
  core _ _ := rfl
  sessions := rfl
  finished := rfl
  owned := by simp
  covered p hp := Or.inl ⟨p, Or.inr hp, rfl, rfl⟩

/-- What the lease invariant needs to know about a pass. -/
structure PassOutcome (s s' : State C H ρ) (seated : List ReqId) : Prop where
  nextReq  : s.nextReq ≤ s'.nextReq
  core     : ∀ r < s.nextReq, (s'.reqs r).core = (s.reqs r).core
  sessions : s'.sessions = s.sessions
  finished : s'.finishedReqs = s.finishedReqs
  lastData : s'.lastData = s.lastData
  running  : s'.runningReqs = s.runningReqs
  owned    : ∀ p ∈ s'.pendingList, ∀ r, p.chunkedReq = some r →
               (s'.reqs r).tableIdx ≠ none ∧ (s'.reqs r).aborted = false
  covered  : ∀ p ∈ s.pendingList,
               (∃ q ∈ s'.pendingList, q.uid = p.uid ∧ q.sessionId = p.sessionId) ∨
               ∃ r ∈ seated, (s'.reqs r).uid = p.uid ∧
                 (s'.reqs r).sessionId = p.sessionId ∧ Unfinished (s'.reqs r)

theorem passOutcome_of_loop {s : State C H ρ} (hwf : Wf s)
    (hown : ∀ p ∈ s.pendingList, ∀ r, p.chunkedReq = some r →
      (s.reqs r).tableIdx ≠ none ∧ (s.reqs r).aborted = false)
    {lanes : List (LaneInput E)} {acc : PassAcc C H ρ}
    (hloop : passLoop ops ⟨s, [], [], []⟩ s.pendingList lanes = some acc) (rotate : Bool) :
    PassOutcome s { acc.state with pendingList :=
      if rotate then acc.remaining ++ acc.chunked else acc.chunked ++ acc.remaining }
      acc.seated := by
  have hp : PassLease s acc [] := passLoop_induction ops
    (fun _ _ _ _ => passLease_step hwf hown) _ _ _ _ (passLease_init s) hloop
  have hmem : ∀ p, p ∈ (if rotate then acc.remaining ++ acc.chunked
      else acc.chunked ++ acc.remaining) ↔ p ∈ acc.chunked ∨ p ∈ acc.remaining := by
    intro p
    cases rotate <;> simp [or_comm]
  refine ⟨hp.wf.nextReq, hp.core, hp.sessions, hp.finished, hp.wf.lastData, hp.wf.running,
    ?_, ?_⟩
  · intro p hpm r hr
    rcases (hmem p).mp hpm with hm | hm
    · exact hp.owned p hm r hr
    · have hps : p ∈ s.pendingList := hp.wf.remaining.subset (List.mem_append_left _ hm)
      obtain ⟨htab, hab⟩ := hown p hps r hr
      have hc := hp.core r (hwf.chunk p hps r hr).lt
      exact ⟨fun hnone => htab ((congrArg Req.tableIdx hc).symm.trans hnone),
        (congrArg Req.aborted hc).trans hab⟩
  · intro p hpm
    rcases hp.covered p hpm with ⟨q, hq, hu, hsid⟩ | h
    · rw [List.append_nil] at hq
      exact Or.inl ⟨q, (hmem q).mpr hq, hu, hsid⟩
    · exact Or.inr h

theorem passOutcome_refl {s : State C H ρ}
    (hown : ∀ p ∈ s.pendingList, ∀ r, p.chunkedReq = some r →
      (s.reqs r).tableIdx ≠ none ∧ (s.reqs r).aborted = false) : PassOutcome s s [] :=
  ⟨Nat.le_refl _, fun _ _ => rfl, rfl, rfl, rfl, rfl, hown,
    fun p hp => Or.inl ⟨p, hp, rfl, rfl⟩⟩

/-- The pass: what it queues again is still queued, what it seats whole is in its batch. -/
theorem topInv_schedule {s s' : State C H ρ} (hwf : Wf s) (h : TopInv none s)
    (hcontrol : s.phase = .control) {inp : PassInput E} {b : Option (Bool × List ReqId)}
    (hrun : scheduleNextBatch ops s inp = some (s', b)) :
    TopInv none { s' with phase := .scheduled b } := by
  obtain ⟨seated, hs', hb⟩ := scheduleNextBatch_cases ops hrun
  have hpass : PassOutcome s s' seated := by
    rcases hs' with ⟨rfl, rfl⟩ | ⟨acc, hloop, rfl, rfl⟩
    · exact passOutcome_refl h.chunkOwned
    · exact passOutcome_of_loop ops hwf h.chunkOwned hloop inp.rotate
  have hsched : scheduledReqs s = [] := by rw [scheduledReqs, hcontrol]
  have hplaces : undrained s = lastReqs s := by
    rw [undrained, launchedReqs, hcontrol, List.append_nil]
  have hplaces' : undrained ({ s' with phase := .scheduled b } : State C H ρ) = lastReqs s := by
    rw [undrained, launchedReqs, List.append_nil, lastReqs, lastReqs, hpass.lastData]
  rw [TopInv, hsched, hplaces] at h
  rw [TopInv, hplaces']
  -- a pass leaves the requests that exist as they are
  have hold : ∀ r ∈ lastReqs s, (s'.reqs r).core = (s.reqs r).core :=
    fun r hr => hpass.core r (hwf.lastData.2 r hr)
  have hrun' : ∀ r ∈ s.runningReqs, (s'.reqs r).core = (s.reqs r).core :=
    fun r hr => hpass.core r (hwf.running r hr).1
  refine ⟨hpass.owned, ?_, ?_, ?_, ?_, ?_⟩
  · intro r hr
    obtain ⟨hlt, htab⟩ := h.finished r (hpass.finished ▸ hr)
    exact ⟨Nat.lt_of_lt_of_le hlt hpass.nextReq,
      (congrArg Req.tableIdx (hpass.core r hlt)).trans htab⟩
  · intro r hr
    have hr' : r ∈ s.runningReqs := hpass.running ▸ hr
    exact (canDecode_of_core (hrun' r hr')).trans (h.decodes r hr')
  · intro r hr hun
    rcases h.placed r hr (unfinished_of_core (hold r hr).symm hun) with hm | hcan
    · exact Or.inl (hpass.running.symm ▸ hm)
    · exact Or.inr ((canDecode_of_core (hold r hr)).trans hcan)
  · rintro sid sid' u ⟨l, hl, hu⟩ ⟨l', hl', hu'⟩
    exact h.distinct sid sid' u ⟨l, hpass.sessions ▸ hl, hu⟩ ⟨l', hpass.sessions ▸ hl', hu'⟩
  · rintro sid u ⟨l, hl, hu⟩ hx
    -- the turn of a busy lease waited and waits, or is seated now, or ran already
    rcases h.served sid u ⟨l, hpass.sessions ▸ hl, hu⟩ hx with ⟨p, hp, hpu, hps⟩ | ⟨r, hr⟩
    · rcases hpass.covered p hp with ⟨q, hq, hqu, hqs⟩ | ⟨r, hr, hru, hrs, hun⟩
      · exact Or.inl ⟨q, hq, hqu.trans hpu, hqs.trans hps⟩
      · refine Or.inr ⟨r, hru.trans hpu, hrs.trans hps, hun, Or.inr (Or.inl ?_)⟩
        rcases hb with ⟨-, rfl⟩ | ⟨rfl, -⟩
        · exact hr
        · cases hr
    · have hc : (s'.reqs r).core = (s.reqs r).core := by
        rcases hr.place with hm | hm | ⟨hm, -⟩
        · exact hrun' r hm
        · cases hm
        · exact hold r hm
      refine Or.inr ⟨r, (congrArg Req.uid hc).trans hr.uid,
        (congrArg Req.sessionId hc).trans hr.sessionId, unfinished_of_core hc hr.unfinished, ?_⟩
      rcases hr.place with hm | hm | ⟨hm, hcan⟩
      · exact Or.inl (hpass.running.symm ▸ hm)
      · cases hm
      · exact Or.inr (Or.inr ⟨hm, (canDecode_of_core hc).trans hcan⟩)

-- ---------------------------------------------------------------------------
-- The forward and the drain
-- ---------------------------------------------------------------------------

theorem completeOne_fields {r r' : Req ρ} (h : r'.core = r.completeOne.core) :
    r'.isChunked = r.isChunked ∧ r'.tableIdx = r.tableIdx ∧ r'.aborted = r.aborted ∧
      r'.uid = r.uid ∧ r'.sessionId = r.sessionId := by
  have hchunk := congrArg Req.isChunked h
  have htab := congrArg Req.tableIdx h
  have hab := congrArg Req.aborted h
  have huid := congrArg Req.uid h
  have hsid := congrArg Req.sessionId h
  exact ⟨hchunk, htab, hab, huid, hsid⟩

/-- `complete_one` spends output budget and nothing else the invariant looks at. -/
theorem unfinished_completeOne {r r' : Req ρ} (h : r'.core = r.completeOne.core) :
    Unfinished r' ↔ Unfinished r := by
  obtain ⟨h₁, h₂, h₃, -⟩ := completeOne_fields h
  constructor
  · rintro ⟨hw, ho, hk⟩
    exact ⟨h₁ ▸ hw, h₂ ▸ ho, h₃ ▸ hk⟩
  · rintro ⟨hw, ho, hk⟩
    exact ⟨h₁.trans hw, fun hn => ho (h₂.symm.trans hn), h₃.trans hk⟩

theorem canDecode_completeOne {r r' : Req ρ} (h : r'.core = r.completeOne.core)
    (hr : r.canDecode = false) : r'.canDecode = false := by
  have hc : r'.canDecode = r.completeOne.canDecode := canDecode_of_core h
  rw [hc]
  rcases Bool.and_eq_false_iff.mp hr with hchunk | hlen
  · exact Bool.and_eq_false_iff.mpr (Or.inl hchunk)
  · refine Bool.and_eq_false_iff.mpr (Or.inr ?_)
    rw [decide_eq_false_iff_not] at hlen ⊢
    unfold Req.remainLen at hlen ⊢
    dsimp only [Req.completeOne]
    omega

theorem topInv_forward {s : State C H ρ} (hwf : Wf s) (h : TopInv none s) {isPrefill : Bool}
    {rids : List ReqId} (hphase : s.phase = .scheduled (some (isPrefill, rids))) :
    TopInv none { (forwardBatch ops cfg s isPrefill rids).1 with
      phase := .launched (some (forwardBatch ops cfg s isPrefill rids).2) } := by
  have hb : BatchOk s rids := by
    have := hwf.phase
    rw [hphase] at this
    exact this
  obtain ⟨cache, reqs, heq, hin, hout, hrows⟩ := forwardBatch_cases ops cfg s isPrefill rids hb.1
  have hsched : scheduledReqs s = rids := by rw [scheduledReqs, hphase]
  have hplaces : undrained s = lastReqs s := by
    rw [undrained, launchedReqs, hphase, List.append_nil]
  rw [TopInv, hsched, hplaces] at h
  rw [heq, hrows]
  have hfst : (rids.map fun rid => (rid, sampledToken cfg (s.reqs rid))).map Prod.fst =
      rids := by
    rw [List.map_map]
    exact List.map_id _
  show LeaseInv none [] (lastReqs s ++
    (rids.map fun rid => (rid, sampledToken cfg (s.reqs rid))).map Prod.fst) _
  rw [hfst]
  have hun : ∀ r, Unfinished (reqs r) ↔ Unfinished (s.reqs r) := by
    intro r
    by_cases hr : r ∈ rids
    · exact unfinished_completeOne (hin r hr)
    · rw [hout r hr]
  have hcan : ∀ r, (s.reqs r).canDecode = false → (reqs r).canDecode = false := by
    intro r hr
    by_cases hm : r ∈ rids
    · exact canDecode_completeOne (hin r hm) hr
    · rw [hout r hm]
      exact hr
  have hkeep : ∀ r, (reqs r).tableIdx = (s.reqs r).tableIdx ∧
      (reqs r).aborted = (s.reqs r).aborted ∧ (reqs r).uid = (s.reqs r).uid ∧
      (reqs r).sessionId = (s.reqs r).sessionId := by
    intro r
    by_cases hr : r ∈ rids
    · exact (completeOne_fields (hin r hr)).2
    · rw [hout r hr]
      exact ⟨rfl, rfl, rfl, rfl⟩
  -- a request with budget left runs on, whichever set it was in
  have hrun : ∀ r, r ∈ s.runningReqs ∨ r ∈ rids → (reqs r).canDecode = true →
      r ∈ (filterReqs { s with cache := cache, reqs := reqs } rids).runningReqs :=
    fun r hr hc => (mem_filterReqs _ rids r).mpr ⟨hr, hc⟩
  refine ⟨?_, ?_, ?_, ?_, h.distinct, ?_⟩
  · intro p hp r hr
    obtain ⟨htab, hab⟩ := h.chunkOwned p hp r hr
    exact ⟨fun hnone => htab ((hkeep r).1.symm.trans hnone), (hkeep r).2.1.trans hab⟩
  · intro r hr
    obtain ⟨hlt, htab⟩ := h.finished r hr
    exact ⟨hlt, (hkeep r).1.trans htab⟩
  · intro r hr
    exact ((mem_filterReqs _ rids r).mp hr).2
  · intro r hr hu
    cases hc : (reqs r).canDecode with
    | false => exact Or.inr hc
    | true =>
      left
      refine hrun r ?_ hc
      rcases List.mem_append.mp hr with hr | hr
      · rcases h.placed r hr ((hun r).mp hu) with hm | hm
        · exact Or.inl hm
        · rw [hcan r hm] at hc
          cases hc
      · exact Or.inr hr
  · intro sid u hbusy hx
    rcases h.served sid u hbusy hx with hp | ⟨r, hr⟩
    · exact Or.inl hp
    · refine Or.inr ⟨r, (hkeep r).2.2.1.trans hr.uid, (hkeep r).2.2.2.trans hr.sessionId,
        (hun r).mpr hr.unfinished, ?_⟩
      cases hc : (reqs r).canDecode with
      | true =>
        left
        refine hrun r ?_ hc
        rcases hr.place with hm | hm | ⟨-, hm⟩
        · exact Or.inl hm
        · exact Or.inr hm
        · rw [hcan r hm] at hc
          cases hc
      | false =>
        refine Or.inr (Or.inr ⟨?_, hc⟩)
        by_cases hm : r ∈ rids
        · exact List.mem_append_right _ hm
        · rcases hr.place with hm' | hm' | ⟨hm', -⟩
          · rw [hout r hm, h.decodes r hm'] at hc
            cases hc
          · exact absurd hm' hm
          · exact List.mem_append_left _ hm'

/-- What the induction over a run carries. The normal loop never leaves a batch in flight. -/
structure LoopInv (overlap : Bool) (s : State C H ρ) : Prop where
  wf     : Wf s
  lease  : TopInv none s
  normal : overlap = false → s.lastData = none

theorem topInv_drain {overlap : Bool} {s : State C H ρ} (now : Time) (h : LoopInv overlap s)
    {b : Option Batch} (hphase : s.phase = .launched b)
    (hok : DrainOk cfg s (if overlap then s.lastData else b)) :
    TopInv none { flushAbortAcks
      (processLastData ops cfg now s (if overlap then s.lastData else b)) with
        phase := .control
        lastData := if overlap then b else none } := by
  have hinv := h.lease
  have hsched : scheduledReqs s = [] := by rw [scheduledReqs, hphase]
  have hlaunched : launchedReqs s = b.elim [] Batch.reqs := by
    rw [launchedReqs, hphase]
    cases b <;> rfl
  rw [TopInv, hsched, undrained, hlaunched, lastReqs_elim] at hinv
  cases overlap with
  | true =>
    have hbatch : BatchOk s (s.lastData.elim [] Batch.reqs) := lastReqs_elim s ▸ h.wf.lastData
    have hd := (leaseInv_processLastData ops cfg now h.wf s.lastData hbatch hinv
      (hok.for_none cfg)).1
    rw [TopInv, undrained, lastReqs_elim, launchedReqs, List.append_nil]
    exact hd.busy (fun _ _ hb => hb) rfl rfl rfl rfl rfl
  | false =>
    have hbatch : BatchOk s (b.elim [] Batch.reqs) := h.wf.launched hphase
    rw [h.normal rfl] at hinv
    have hinv' : LeaseInv none [] (b.elim [] Batch.reqs ++ []) s := by
      rw [List.append_nil]
      exact hinv
    have hd := (leaseInv_processLastData ops cfg now h.wf b hbatch hinv'
      (hok.for_none cfg)).1
    exact hd.busy (fun _ _ hb => hb) rfl rfl rfl rfl rfl

-- ---------------------------------------------------------------------------
-- The loops
-- ---------------------------------------------------------------------------

theorem loopInv_init (overlap : Bool) (cache : C) (dummy : Req ρ) (n : Nat) :
    LoopInv overlap (State.init cache dummy n : State C H ρ) where
  wf := wf_init cache dummy n
  lease := by
    refine ⟨?_, ?_, ?_, ?_, ?_, ?_⟩
    · intro p hp
      cases hp
    · intro r hr
      cases hr
    · intro r hr
      cases hr
    · intro r hr
      cases hr
    · rintro sid sid' u ⟨l, hl, -⟩
      cases hl
    · rintro sid u ⟨l, hl, -⟩
      cases hl
  normal _ := rfl

theorem normal_ext {overlap : Bool} {s s' : State C H ρ}
    (h : overlap = false → s.lastData = none) (he : Ext s s') :
    overlap = false → s'.lastData = none := by
  intro ho
  rcases he.lastData with hl | hl
  · exact hl.trans (h ho)
  · exact hl

theorem scheduleNextBatch_lastData {s s' : State C H ρ} {inp : PassInput E}
    {b : Option (Bool × List ReqId)} (h : scheduleNextBatch ops s inp = some (s', b)) :
    s'.lastData = s.lastData := by
  obtain ⟨seated, hs', -⟩ := scheduleNextBatch_cases ops h
  rcases hs' with ⟨rfl, -⟩ | ⟨acc, hloop, -, rfl⟩
  · rfl
  · have hp : PassWf s acc [] := passLoop_induction ops (fun _ _ _ _ => passWf_step) _ _ _ _
      (passWf_init s) hloop
    exact hp.lastData

theorem forwardBatch_lastData (s : State C H ρ) (isPrefill : Bool) (rids : List ReqId) :
    (forwardBatch ops cfg s isPrefill rids).1.lastData = s.lastData := by
  have hfold : ∀ (rids : List ReqId) (acc : State C H ρ × List (ReqId × Token)),
      (rids.foldl (forwardRow ops cfg isPrefill) acc).1.lastData = acc.1.lastData := by
    intro rids
    induction rids with
    | nil => exact fun _ => rfl
    | cons r rids ih => exact fun acc => ih _
  exact hfold rids _

theorem abortUid_lastData (now : Time) (s : State C H ρ) (u : Uid) :
    (abortUid ops cfg now s u).lastData = s.lastData := by
  obtain ⟨pending, running, heq, -⟩ := abortReq_cases s u
  rw [abortUid, heq]
  rcases dropReq_cases ops cfg now { s with pendingList := pending, runningReqs := running }
    (abortReq s u).1 with ⟨-, h⟩ | ⟨r, -, h⟩ | ⟨r, slot, c, al, res, -, -, h⟩
  · rw [h]
  · rw [h]
    rfl
  · rw [h]

theorem closeSession_lastData (now : Time) (s : State C H ρ) (sid : SessionId) :
    (closeSession ops cfg now s sid).lastData = s.lastData := by
  unfold closeSession
  split
  · rfl
  · split
    · rfl
    · exact abortUid_lastData ops cfg now _ _

theorem processAbort_lastData (now : Time) (s : State C H ρ) (u : Uid)
    (sid : Option SessionId) : (processAbort ops cfg now s u sid).lastData = s.lastData := by
  refine (abortUid_lastData ops cfg now _ u).trans ?_
  cases abortedSession s u sid with
  | none => rfl
  | some target => exact closeSession_lastData ops cfg now (noteAbort s u) target

theorem processClose_lastData (now : Time) (s : State C H ρ) (sid : SessionId)
    (requestId : Nat) : (processClose ops cfg now s sid requestId).lastData = s.lastData := by
  have hclose := closeSession_lastData ops cfg now s sid
  unfold processClose
  split
  · rfl
  · dsimp only
    split
    · exact hclose
    · split
      · exact hclose
      · exact hclose

theorem expireSessions_lastData (now : Time) (s : State C H ρ) :
    (expireSessions ops cfg now s).lastData = s.lastData := by
  unfold expireSessions
  generalize expiredSessions now s = sids
  induction sids generalizing s with
  | nil => rfl
  | cons sid sids ih => exact (ih _).trans (closeSession_lastData ops cfg now s sid)

/-- A handler that leaves the phase alone and drains nothing. -/
theorem topInv_of_ext {s s' : State C H ρ}
    (hinv : LeaseInv none (scheduledReqs s) (undrained s) s') (he : Ext s s')
    (hlast : s'.lastData = s.lastData) : TopInv none s' := by
  rw [TopInv, scheduledReqs_congr he.phase, undrained_congr he.phase hlast]
  exact hinv

/-- The normal loop drains every batch it launches. -/
theorem normal_step {overlap : Bool} {s s' : State C H ρ} {a : Step E}
    (h : overlap = false → s.lastData = none)
    (hstep : step ops cfg overlap s a = some s') : overlap = false → s'.lastData = none := by
  intro ho
  cases step_cases ops cfg hstep with
  | msg now m env hphase =>
    cases m with
    | user msg =>
      rcases processUser_cases ops cfg now env s msg with he | ⟨s₁, msg', he, -, heq⟩
      · exact normal_ext h he ho
      · rw [processOneMsg, heq]
        have hlast : s₁.lastData = none := normal_ext h he ho
        exact hlast
    | abort u sid => exact normal_ext h (processAbort_ext ops cfg now s u sid) ho
    | closeSession sid requestId =>
      exact normal_ext h (processClose_ext ops cfg now s sid requestId) ho
  | expire now hphase => exact normal_ext h (expireSessions_ext ops cfg now s) ho
  | service now e hphase => exact normal_ext h (serve_ext ops now s e) ho
  | drainInflight now hphase => rfl
  | schedule inp hphase t b hrun => exact (scheduleNextBatch_lastData ops hrun).trans (h ho)
  | forwardNone hphase => exact h ho
  | forward isPrefill rids hphase =>
    exact (forwardBatch_lastData ops cfg s isPrefill rids).trans (h ho)
  | drain now b hphase =>
    rw [ho]
    rfl

theorem loopInv_step {overlap : Bool} {s s' : State C H ρ} {a : Step E}
    (h : LoopInv overlap s) (hok : LeaseStepOk cfg overlap s a)
    (hstep : step ops cfg overlap s a = some s') : LoopInv overlap s' := by
  refine ⟨wf_step ops cfg h.wf hstep, ?_, normal_step ops cfg h.normal hstep⟩
  cases step_cases ops cfg hstep with
  | msg now m env hphase =>
    cases m with
    | user msg => exact topInv_processUser ops cfg now env h.wf h.lease hok
    | abort u sid =>
      exact topInv_of_ext (leaseInv_processAbort ops cfg now h.wf h.lease hok)
        (processAbort_ext ops cfg now s u sid) (processAbort_lastData ops cfg now s u sid)
    | closeSession sid requestId =>
      exact topInv_of_ext (leaseInv_processClose ops cfg now h.wf h.lease sid requestId)
        (processClose_ext ops cfg now s sid requestId)
        (processClose_lastData ops cfg now s sid requestId)
  | expire now hphase =>
    exact topInv_of_ext (leaseInv_expireSessions ops cfg now h.wf h.lease)
      (expireSessions_ext ops cfg now s) (expireSessions_lastData ops cfg now s)
  | service now e hphase => exact topInv_serve ops now h.lease e
  | drainInflight now hphase =>
    exact (topInv_drainInflight ops cfg now h.wf h.lease (DrainOk.for_none cfg hok)).1
  | schedule inp hphase t b hrun => exact topInv_schedule ops h.wf h.lease hphase hrun
  | forwardNone hphase =>
    have hinv := h.lease
    rw [TopInv, scheduledReqs, undrained, launchedReqs, hphase] at hinv
    exact hinv.busy (fun _ _ hb => hb) rfl rfl rfl rfl rfl
  | forward isPrefill rids hphase => exact topInv_forward ops cfg h.wf h.lease hphase
  | drain now b hphase =>
    unfold LeaseStepOk at hok
    rw [hphase] at hok
    exact topInv_drain ops cfg now h hphase hok

/-- The invariant covers what the test's `busy_leases_have_a_live_request` asks for. -/
theorem LoopInv.live {overlap : Bool} {s : State C H ρ} (h : LoopInv overlap s) :
    BusyLeasesLive s := by
  intro sid u hb
  rcases h.lease.served sid u hb (by simp) with ⟨p, hp, hpu, -⟩ | ⟨r, hr⟩
  · exact Or.inl ⟨p, hp, hpu⟩
  · exact Or.inr ⟨r, hr.uid, hr.unfinished.owns, hr.place.imp id (Or.imp id And.left)⟩

/--
**A busy lease has a live request.** In every run of either loop whose steps all
meet `LeaseStepOk`, every state reached has, for each lease that is busy with a
turn, that turn queued, running, chosen for the next forward or in flight.
-/
theorem busy_leases_live {overlap : Bool} {cache : C} {dummy : Req ρ} {n : Nat}
    {s : State C H ρ}
    (hs : Lib.Reach (step ops cfg overlap) (LeaseStepOk cfg overlap)
      (State.init cache dummy n) s) : BusyLeasesLive s :=
  (hs.invariant (loopInv_init overlap cache dummy n)
    fun _ _ _ h hok hstep => loopInv_step ops cfg h hok hstep).live

-- ---------------------------------------------------------------------------
-- A refused prompt keeps its lease
-- ---------------------------------------------------------------------------

/-- A prompt with an image for a server without an encoder, on session `c`. -/
def imageTurn : UserMsg := { turn 1 with mmItems := [1] }

def refusedImage : State Unit Unit Unit :=
  processUser .naive .plain 0 .quiet (State.init () .dummy 4) imageTurn

/-- The prompt is answered "image input is not supported by this server", and
its session stays busy with it: the next turn is refused. -/
theorem refused_image_keeps_lease_busy :
    Lib.Reach (step .naive .plain true) (fun _ _ => True) (State.init () .dummy 4)
      refusedImage ∧
    ¬ BusyLeasesLive refusedImage ∧
    (processUser .naive .plain 0 .quiet refusedImage (turn 2)).outbox =
      [.error 1 .imageUnsupported, .error 2 (.sessionBusy ['c'])] := by
  refine ⟨Lib.reach_of_run [.msg 0 (.user imageTurn) .quiet] rfl, fun hlive => ?_, by decide⟩
  rcases hlive ['c'] 1 ⟨_, rfl, rfl⟩ with ⟨p, hp, -⟩ | ⟨r, -, -, hr | hr | hr⟩
  · cases hp
  · cases hr
  · cases hr
  · cases hr

/-- One text turn on an idle session. -/
def queuedTurn : State Unit Unit Unit :=
  processUser .naive .plain 0 .quiet (State.init () .dummy 4) (turn 1)

/-- Queueing the text turn meets the condition, and its lease is live. -/
theorem text_turn_lease_live : BusyLeasesLive queuedTurn := by
  have hok : LeaseStepOk .plain true (State.init () .dummy 4 : State Unit Unit Unit)
      (.msg 0 (.user (turn 1)) .quiet) := by
    rintro sid hsid -
    exact ⟨Or.inl rfl, Or.inr rfl, nofun, fun sid' hb => by obtain ⟨l, hl, -⟩ := hb; cases hl⟩
  have hstep : step .naive .plain true (State.init () .dummy 4)
      (.msg 0 (.user (turn 1)) .quiet) = some queuedTurn := rfl
  exact busy_leases_live .naive .plain (.step .refl hok hstep)

end FreeToken.Scheduler
