import FreeToken.Scheduler.Stream

/-!
# The stream invariant

Where a turn is between two steps of the loop: still queued with nothing sent,
served by one whole request (`Serving`), or over with the promised stream sent.
A serving request has sent `k` messages, has `n` sampled tokens in batches that
are not drained yet, and its length is the prompt's plus `k + n`.

`StreamInv` is stated for the rows a drain is working on (`drained`), the rows
of the batch launched behind them (`later`), and the chosen batch (`sched`).
This module proves that a drain keeps it.
-/

namespace FreeToken.Scheduler

variable {C H ρ E : Type} (ops : CacheOps C H ρ E) (cfg : Config)

-- ---------------------------------------------------------------------------
-- The invariant
-- ---------------------------------------------------------------------------

/-- `r` serves the turn `msg`: `k` messages sent, `n` sampled tokens not drained. -/
structure Serving (s : State C H ρ) (sched : List ReqId) (rows : List (ReqId × Token))
    (deliv : Uid → List DetokenizeMsg) (msg : UserMsg) (r : ReqId) (k n : Nat) : Prop where
  req       : TurnReq cfg msg (s.reqs r) k
  owns      : (s.reqs r).tableIdx ≠ none
  within    : k < turnLength cfg msg
  delivered : deliv msg.uid = (List.range k).map (messageAt cfg msg)
  inflight  : tokensOf rows r = (List.range' k n).map (cfg.script msg.uid)
  length    : (s.reqs r).deviceLen = msg.inputIds.length + (k + n)
  budget    : k + n ≤ msg.samplingParams.maxTokens
  place     : r ∈ s.runningReqs ∨ r ∈ sched ∨
                r ∈ rows.map Prod.fst ∧ (s.reqs r).canDecode = false

/-- The turn `msg`, served by `r`, is over and all of it was sent. -/
structure Over (s : State C H ρ) (deliv : Uid → List DetokenizeMsg) (msg : UserMsg)
    (r : ReqId) : Prop where
  uid       : (s.reqs r).uid = msg.uid
  freed     : (s.reqs r).tableIdx = none
  delivered : deliv msg.uid = expected cfg msg

/-- The whole request `r` serves a turn of `s.admitted`, or did. -/
def Serves (s : State C H ρ) (sched : List ReqId) (rows : List (ReqId × Token))
    (deliv : Uid → List DetokenizeMsg) (r : ReqId) : Prop :=
  ∃ msg ∈ s.admitted, Over cfg s deliv msg r ∨ ∃ k n, Serving cfg s sched rows deliv msg r k n

/-- The queue entry of a prompt of which nothing was sent. -/
structure Queued (msg : UserMsg) (p : PendingReq) : Prop where
  uid      : p.uid = msg.uid
  inputIds : p.inputIds = msg.inputIds
  sampling : p.samplingParams = msg.samplingParams

structure StreamInv (sched : List ReqId) (drained later : List (ReqId × Token))
    (ended newEnded : List ReqId) (deliv : Uid → List DetokenizeMsg) (s : State C H ρ) :
    Prop where
  admitted : (s.admitted.map UserMsg.uid).Nodup ∧
               ∀ msg ∈ s.admitted, 0 < msg.samplingParams.maxTokens
  objects  : ∀ r < s.nextReq, (s.reqs r).aborted = false ∧
               ((s.reqs r).isChunked = true → (s.reqs r).tableIdx ≠ none)
  pending  : ∀ p ∈ s.pendingList, ∃ msg ∈ s.admitted, Queued msg p ∧ deliv msg.uid = []
  single   : (s.pendingList.map PendingReq.uid).Nodup
  serves   : ∀ r < s.nextReq, (s.reqs r).isChunked = false →
               Serves cfg s sched (drained ++ later) deliv r
  apart    : ∀ r < s.nextReq, (s.reqs r).isChunked = false → ∀ p ∈ s.pendingList,
               p.uid ≠ (s.reqs r).uid
  unique   : ∀ r < s.nextReq, (s.reqs r).isChunked = false → ∀ r' < s.nextReq,
               (s.reqs r').isChunked = false → (s.reqs r').uid = (s.reqs r).uid → r' = r
  covered  : ∀ msg ∈ s.admitted, (∃ p ∈ s.pendingList, p.uid = msg.uid) ∨
               ∃ r < s.nextReq, (s.reqs r).isChunked = false ∧ (s.reqs r).uid = msg.uid
  silent   : ∀ u, u ∉ s.admitted.map UserMsg.uid → deliv u = []
  skipped  : ∀ r ∈ drained.map Prod.fst, (s.reqs r).isChunked = false →
               (s.reqs r).tableIdx = none → r ∈ ended
  later    : ∀ r ∈ later.map Prod.fst, (s.reqs r).isChunked = false →
               (s.reqs r).tableIdx = none → r ∈ newEnded
  ended    : ∀ r, r ∈ ended ∨ r ∈ newEnded → r < s.nextReq ∧ (s.reqs r).tableIdx = none
  running  : ∀ r ∈ s.runningReqs, (s.reqs r).tableIdx ≠ none ∧ (s.reqs r).canDecode = true
  sched    : ∀ r ∈ sched, (s.reqs r).isChunked = false →
               (s.reqs r).tableIdx ≠ none ∧ (s.reqs r).canDecode = true

variable {cfg}

theorem Serves.uid {s : State C H ρ} {sched : List ReqId} {rows : List (ReqId × Token)}
    {deliv : Uid → List DetokenizeMsg} {r : ReqId} (h : Serves cfg s sched rows deliv r) :
    (s.reqs r).uid ∈ s.admitted.map UserMsg.uid := by
  obtain ⟨msg, hm, hover | ⟨k, n, hs⟩⟩ := h
  · exact hover.uid ▸ List.mem_map_of_mem hm
  · exact hs.req.uid ▸ List.mem_map_of_mem hm

/-- Two admitted prompts of one uid are the same prompt. -/
theorem StreamInv.same_msg {sched : List ReqId} {d l : List (ReqId × Token)}
    {ended newEnded : List ReqId} {deliv : Uid → List DetokenizeMsg} {s : State C H ρ}
    (h : StreamInv cfg sched d l ended newEnded deliv s) {m m' : UserMsg}
    (hm : m ∈ s.admitted) (hm' : m' ∈ s.admitted) (hu : m.uid = m'.uid) : m = m' :=
  List.inj_on_of_nodup_map h.admitted.1 hm hm' hu

/-- A request that a step leaves alone serves its turn as before. -/
theorem Serves.congr {s s' : State C H ρ} {sched sched' : List ReqId}
    {rows rows' : List (ReqId × Token)} {deliv deliv' : Uid → List DetokenizeMsg} {r : ReqId}
    (h : Serves cfg s sched rows deliv r) (hadm : ∀ m ∈ s.admitted, m ∈ s'.admitted)
    (hcore : (s'.reqs r).core = (s.reqs r).core)
    (hdeliv : deliv' (s.reqs r).uid = deliv (s.reqs r).uid)
    (htok : tokensOf rows' r = tokensOf rows r)
    (hrun : r ∈ s.runningReqs → r ∈ s'.runningReqs)
    (hsched : r ∈ sched → r ∈ s'.runningReqs ∨ r ∈ sched')
    (hrows : r ∈ rows.map Prod.fst → r ∈ rows'.map Prod.fst) :
    Serves cfg s' sched' rows' deliv' r := by
  obtain ⟨msg, hm, hover | ⟨k, n, hs⟩⟩ := h
  · refine ⟨msg, hadm msg hm, Or.inl ⟨(congrArg Req.uid hcore).trans hover.uid,
      (congrArg Req.tableIdx hcore).trans hover.freed, ?_⟩⟩
    rw [← hover.uid, hdeliv, hover.uid]
    exact hover.delivered
  · refine ⟨msg, hadm msg hm, Or.inr ⟨k, n, hs.req.of_core cfg hcore, fun hnone =>
      hs.owns ((congrArg Req.tableIdx hcore).symm.trans hnone), hs.within, ?_,
      htok.trans hs.inflight, (congrArg Req.deviceLen hcore).trans hs.length, hs.budget, ?_⟩⟩
    · rw [← hs.req.uid, hdeliv, hs.req.uid]
      exact hs.delivered
    · rcases hs.place with hp | hp | ⟨hp, hcan⟩
      · exact Or.inl (hrun hp)
      · exact (hsched hp).imp id Or.inl
      · exact Or.inr (Or.inr ⟨hrows hp, (canDecode_of_core hcore).trans hcan⟩)

-- ---------------------------------------------------------------------------
-- One row of a drain
-- ---------------------------------------------------------------------------

/-- What the drain has sent to the client of `u`, its own replies included. -/
def delivOf (acc : DrainAcc C H ρ) (u : Uid) : List DetokenizeMsg :=
  stream acc.state u ++ acc.reply.filter fun m => decide (m.uid = u)

variable (cfg)

/-- The condition on a drained row. A request that is also in the batch launched
behind has budget left or ends with this token, and one that was already chosen
for the next forward does not finish here. -/
structure DrainRowOk (s : State C H ρ) (sched : List ReqId) (later : List (ReqId × Token))
    (row : ReqId × Token) : Prop where
  later : row.1 ∈ later.map Prod.fst → (s.reqs row.1).canDecode = true ∨
            hitStop cfg ((s.reqs row.1).appendHost row.2) row.2 = true
  sched : row.1 ∈ sched → rowFinishes cfg s row = false

variable {cfg}

/-- Changing one request, as a drained row does, keeps the invariant when the
request still serves its turn or is over. -/
theorem StreamInv.row {sched : List ReqId} {row : ReqId × Token} {d l : List (ReqId × Token)}
    {ended newEnded newEnded' : List ReqId} {deliv deliv' : Uid → List DetokenizeMsg}
    {s s' : State C H ρ} (h : StreamInv cfg sched (row :: d) l ended newEnded deliv s)
    (hlt : row.1 < s.nextReq) (hnot : row.1 ∉ d.map Prod.fst)
    (hwhole : (s.reqs row.1).isChunked = false)
    (hf : RowFrame row.1 s s') (hst : ∀ r, (s'.reqs r).static = (s.reqs r).static)
    (hab : (s'.reqs row.1).aborted = false)
    (hdeliv : ∀ u, u ≠ (s.reqs row.1).uid → deliv' u = deliv u)
    (hserves : Serves cfg s' sched (d ++ l) deliv' row.1)
    (hrun : row.1 ∈ s'.runningReqs →
      (s'.reqs row.1).tableIdx ≠ none ∧ (s'.reqs row.1).canDecode = true)
    (hsched : row.1 ∈ sched →
      (s'.reqs row.1).tableIdx ≠ none ∧ (s'.reqs row.1).canDecode = true)
    (hnew : ∀ r, r ≠ row.1 → (r ∈ newEnded' ↔ r ∈ newEnded))
    (hended : row.1 ∈ ended ∨ row.1 ∈ newEnded' → (s'.reqs row.1).tableIdx = none)
    (hover : (s'.reqs row.1).tableIdx = none → row.1 ∈ newEnded') :
    StreamInv cfg sched d l ended newEnded' deliv' s' := by
  have hchunk : ∀ r, (s'.reqs r).isChunked = (s.reqs r).isChunked :=
    fun r => Req.isChunked_of_static (hst r)
  have huid : ∀ r, (s'.reqs r).uid = (s.reqs r).uid := fun r => Req.uid_of_static (hst r)
  -- the other turns were sent nothing
  have hother : ∀ msg ∈ s.admitted, msg.uid ≠ (s.reqs row.1).uid →
      deliv' msg.uid = deliv msg.uid := fun msg _ hne => hdeliv _ hne
  refine ⟨?_, ?_, ?_, ?_, ?_, ?_, ?_, ?_, ?_, ?_, ?_, ?_, ?_, ?_⟩
  · rw [hf.admitted]
    exact h.admitted
  · intro r hr
    rw [hf.nextReq] at hr
    by_cases hne : r = row.1
    · subst hne
      refine ⟨hab, fun hc => ?_⟩
      rw [hchunk, hwhole] at hc
      cases hc
    · rw [hf.other r hne]
      exact h.objects r hr
  · intro p hp
    rw [hf.pending] at hp
    obtain ⟨msg, hm, hq, hd⟩ := h.pending p hp
    refine ⟨msg, hf.admitted ▸ hm, hq, ?_⟩
    rw [hother msg hm (hq.uid ▸ h.apart row.1 hlt hwhole p hp)]
    exact hd
  · rw [hf.pending]
    exact h.single
  · intro r hr hc
    rw [hf.nextReq] at hr
    rw [hchunk] at hc
    by_cases hne : r = row.1
    · exact hne ▸ hserves
    · have hu : (s.reqs r).uid ≠ (s.reqs row.1).uid :=
        fun heq => hne (h.unique row.1 hlt hwhole r hr hc heq)
      refine (h.serves r hr hc).congr (fun m hm => hf.admitted.symm ▸ hm)
        (congrArg Req.core (hf.other r hne)) (hdeliv _ hu) ?_ (hf.running r hne).mpr Or.inr
        fun hm => ?_
      · rw [List.cons_append, tokensOf_cons_of_ne hne]
      · rw [List.cons_append, List.map_cons] at hm
        exact (List.mem_cons.mp hm).resolve_left hne
  · intro r hr hc p hp
    rw [hf.nextReq] at hr
    rw [hf.pending] at hp
    rw [hchunk] at hc
    rw [huid]
    exact h.apart r hr hc p hp
  · intro r hr hc r' hr' hc' heq
    rw [hf.nextReq] at hr hr'
    rw [hchunk] at hc hc'
    rw [huid, huid] at heq
    exact h.unique r hr hc r' hr' hc' heq
  · intro msg hm
    rw [hf.admitted] at hm
    rcases h.covered msg hm with hp | ⟨r, hr, hc, hu⟩
    · exact Or.inl (hf.pending ▸ hp)
    · exact Or.inr ⟨r, hf.nextReq ▸ hr, (hchunk r).trans hc, (huid r).trans hu⟩
  · intro u hu
    rw [hf.admitted] at hu
    have hne : u ≠ (s.reqs row.1).uid :=
      fun heq => hu (heq ▸ (h.serves row.1 hlt hwhole).uid)
    rw [hdeliv u hne]
    exact h.silent u hu
  · intro r hr hc htab
    have hne : r ≠ row.1 := fun heq => hnot (heq ▸ hr)
    rw [hf.other r hne] at hc htab
    exact h.skipped r (List.mem_cons_of_mem _ hr) hc htab
  · intro r hr hc htab
    by_cases hne : r = row.1
    · subst hne
      exact hover htab
    · rw [hf.other r hne] at hc htab
      exact (hnew r hne).mpr (h.later r hr hc htab)
  · intro r hr
    by_cases hne : r = row.1
    · subst hne
      exact ⟨hf.nextReq.symm ▸ hlt, hended hr⟩
    · rw [hf.other r hne, hf.nextReq]
      exact h.ended r (hr.imp id (hnew r hne).mp)
  · intro r hr
    by_cases hne : r = row.1
    · subst hne
      exact hrun hr
    · rw [hf.other r hne]
      exact h.running r ((hf.running r hne).mp hr)
  · intro r hr hc
    by_cases hne : r = row.1
    · subst hne
      exact hsched hr
    · rw [hf.other r hne] at hc ⊢
      exact h.sched r hr hc

/-- A row with nothing to do: an intermediate chunk, or a turn that is over. -/
theorem StreamInv.idle {sched : List ReqId} {row : ReqId × Token} {d l : List (ReqId × Token)}
    {ended newEnded : List ReqId} {deliv : Uid → List DetokenizeMsg} {s : State C H ρ}
    (h : StreamInv cfg sched (row :: d) l ended newEnded deliv s)
    (hidle : (s.reqs row.1).isChunked = true ∨ (s.reqs row.1).tableIdx = none) :
    StreamInv cfg sched d l ended newEnded deliv s where
  admitted := h.admitted
  objects := h.objects
  pending := h.pending
  single := h.single
  serves r hr hc := by
    by_cases hne : r = row.1
    · subst hne
      rcases hidle with hchunk | htab
      · rw [hc] at hchunk
        cases hchunk
      · obtain ⟨msg, hm, hover | ⟨k, n, hs⟩⟩ := h.serves row.1 hr hc
        · exact ⟨msg, hm, Or.inl hover⟩
        · exact absurd htab hs.owns
    · refine (h.serves r hr hc).congr (fun _ hm => hm) rfl rfl ?_ id Or.inr fun hm => ?_
      · rw [List.cons_append, tokensOf_cons_of_ne hne]
      · rw [List.cons_append, List.map_cons] at hm
        exact (List.mem_cons.mp hm).resolve_left hne
  apart := h.apart
  unique := h.unique
  covered := h.covered
  silent := h.silent
  skipped r hr := h.skipped r (List.mem_cons_of_mem _ hr)
  later := h.later
  ended := h.ended
  running := h.running
  sched := h.sched

/-- The row of a request that serves a turn: its token is the next one, and the
drain's finish test says what the promise says. -/
theorem Serving.row {s : State C H ρ} {sched : List ReqId} {row : ReqId × Token}
    {d l : List (ReqId × Token)} {deliv : Uid → List DetokenizeMsg} {msg : UserMsg}
    {k n : Nat} (h : Serving cfg s sched (row :: d ++ l) deliv msg row.1 k n)
    (hnot : row.1 ∉ d.map Prod.fst) (hok : DrainRowOk cfg s sched l row) :
    row.2 = cfg.script msg.uid k ∧ (∃ n', n = n' + 1 ∧
      tokensOf (d ++ l) row.1 = (List.range' (k + 1) n').map (cfg.script msg.uid)) ∧
      detokenizeMsg cfg ((s.reqs row.1).appendHost row.2) row.2 = messageAt cfg msg k := by
  have htok := h.inflight
  rw [List.cons_append, tokensOf_cons_self] at htok
  cases n with
  | zero => cases htok
  | succ n =>
    rw [List.range'_succ, List.map_cons, List.cons.injEq] at htok
    obtain ⟨hrow, hrest⟩ := htok
    refine ⟨hrow, ⟨n, rfl, hrest⟩, ?_⟩
    rw [hrow]
    have hcan := h.req.canDecode cfg h.length
    refine detokenizeMsg_eq_messageAt cfg h.req h.within ?_ ?_
    · intro hfalse
      have hspent : msg.samplingParams.maxTokens ≤ k + (n + 1) := by
        by_contra hlt
        rw [hcan.mpr (Nat.lt_of_not_le hlt)] at hfalse
        cases hfalse
      cases n with
      | zero => exact Or.inr hspent
      | succ n =>
        -- a second undrained token is in the batch launched behind
        have hlater : row.1 ∈ l.map Prod.fst := by
          by_contra hl
          rw [tokensOf_append, tokensOf_eq_nil hnot, tokensOf_eq_nil hl] at hrest
          cases hrest
        rcases hok.later hlater with hc | hs
        · rw [hc] at hfalse
          cases hfalse
        · left
          obtain ⟨heos, hmatched⟩ := h.req.hitStop
          rw [hrow, hitStop, heos, hmatched] at hs
          exact hs
    · intro hlast
      by_contra hc
      rw [Bool.not_eq_false] at hc
      have := hcan.mp hc
      omega

variable (cfg)

/-- A drain marks nobody aborted. -/
theorem drainRow_aborted (now : Time) (isPrefill : Bool) (acc : DrainAcc C H ρ)
    (row : ReqId × Token) :
    ((drainRow ops cfg now isPrefill acc row).state.reqs row.1).aborted =
      (acc.state.reqs row.1).aborted := by
  have hfree : ∀ (s : State C H ρ) (retain : Bool),
      ((freeReqResources ops cfg now s row.1 retain).reqs row.1).aborted =
        (s.reqs row.1).aborted := by
    intro s retain
    cases ht : (s.reqs row.1).tableIdx with
    | none => rw [freeReqResources_freed ops cfg now retain ht]
    | some slot =>
      obtain ⟨cache, sessions, aliases, res, heq, -⟩ :=
        freeReqResources_cases ops cfg now retain ht
      rw [heq]
      dsimp only
      rw [Function.update_self]
  rcases drainRow_cases ops cfg now isPrefill acc row with
    ⟨-, h⟩ | ⟨-, -, h⟩ | ⟨-, -, h⟩ | ⟨-, -, h⟩ | ⟨-, -, h⟩
  · rw [h]
  · rw [h]
    exact hfree _ _
  · rw [h]
    exact hfree _ _
  · obtain ⟨anchor, happ⟩ := appendToken_self cfg acc.state row.1 row.2 true
    have hreq : (removeRunning (appendToken cfg acc.state row.1 row.2 true) row.1).reqs row.1 =
        { (acc.state.reqs row.1).appendHost row.2 with toolcallAnchorLen := anchor } := happ
    rw [h]
    dsimp only
    rw [hfree, hreq]
    rfl
  · obtain ⟨anchor, res, hself⟩ := keep_self ops cfg isPrefill acc.state row.1 row.2
    rw [h]
    dsimp only
    rw [hself]
    rfl

theorem stream_congr {s s' : State C H ρ} (h : s'.outbox = s.outbox) (u : Uid) :
    stream s' u = stream s u := by
  rw [stream, stream, h]

/-- One more reply is one more message for its own client and nobody else. -/
theorem delivOf_append {acc acc' : DrainAcc C H ρ} {m : DetokenizeMsg}
    (hout : acc'.state.outbox = acc.state.outbox) (hreply : acc'.reply = acc.reply ++ [m]) :
    delivOf acc' m.uid = delivOf acc m.uid ++ [m] ∧
      ∀ u, u ≠ m.uid → delivOf acc' u = delivOf acc u := by
  constructor
  · simp [delivOf, stream_congr hout, hreply, List.filter_append]
  · intro u hu
    simp [delivOf, stream_congr hout, hreply, List.filter_append, hu.symm]

theorem mem_insert_of_ne {α : Type} [BEq α] [LawfulBEq α] {a b : α} {l : List α} (h : a ≠ b) :
    a ∈ l.insert b ↔ a ∈ l := by
  rw [List.mem_insert_iff]
  exact or_iff_right h

theorem streamInv_drainRow {sched : List ReqId} {row : ReqId × Token}
    {d l : List (ReqId × Token)} (now : Time) (isPrefill : Bool) {acc : DrainAcc C H ρ}
    (hwf : Wf acc.state)
    (h : StreamInv cfg sched (row :: d) l acc.state.finishedReqs acc.newFinished
      (delivOf acc) acc.state)
    (hlt : row.1 < acc.state.nextReq) (hnot : row.1 ∉ d.map Prod.fst)
    (hok : DrainRowOk cfg acc.state sched l row) :
    StreamInv cfg sched d l acc.state.finishedReqs
      (drainRow ops cfg now isPrefill acc row).newFinished
      (delivOf (drainRow ops cfg now isPrefill acc row))
      (drainRow ops cfg now isPrefill acc row).state := by
  have hf := drainRow_frame ops cfg now isPrefill acc row
  have hext := drainRow_ext ops cfg now isPrefill acc row
  have habort := (drainRow_aborted ops cfg now isPrefill acc row).trans (h.objects row.1 hlt).1
  have hcanDecode := drainRow_canDecode ops cfg now isPrefill acc row row.1
  have hmsgUid : (detokenizeMsg cfg ((acc.state.reqs row.1).appendHost row.2) row.2).uid =
      (acc.state.reqs row.1).uid := rfl
  rcases drainRow_cases ops cfg now isPrefill acc row with
    ⟨hidle, heq⟩ | ⟨ha, -, -⟩ | ⟨ha, -, -⟩ | ⟨hlive, hfin, heq⟩ | ⟨hlive, hfin, heq⟩
  · rw [heq]
    exact h.idle (hidle.2.imp id fun hm => (h.ended row.1 (Or.inl hm)).2)
  · rw [(h.objects row.1 hlt).1] at ha
    cases ha
  · rw [(h.objects row.1 hlt).1] at ha
    cases ha
  · -- the turn ends here
    obtain ⟨msg, hm, hover | ⟨k, n, hs⟩⟩ := h.serves row.1 hlt hlive.whole
    · exact absurd (h.skipped row.1 (List.mem_cons_self ..) hlive.whole hover.freed) hlive.unended
    obtain ⟨-, -, hreply⟩ := hs.row hnot hok
    obtain ⟨hself, hothers⟩ := delivOf_append hf.outbox
      (congrArg DrainAcc.reply heq : (drainRow ops cfg now isPrefill acc row).reply = _)
    have hfreed : ((drainRow ops cfg now isPrefill acc row).state.reqs row.1).tableIdx = none := by
      rw [heq]
      exact freeReqResources_tableIdx ops cfg now _ _ _
    have hnew : (drainRow ops cfg now isPrefill acc row).newFinished =
        acc.newFinished.insert row.1 := congrArg DrainAcc.newFinished heq
    have hlast : k + 1 = turnLength cfg msg := by
      unfold rowFinishes at hfin
      rw [hreply] at hfin
      exact of_decide_eq_true hfin
    have hserves : Serves cfg (drainRow ops cfg now isPrefill acc row).state sched (d ++ l)
        (delivOf (drainRow ops cfg now isPrefill acc row)) row.1 := by
      refine ⟨msg, hf.admitted ▸ hm, Or.inl ⟨hf.uid.trans hs.req.uid, hfreed, ?_⟩⟩
      rw [hmsgUid, hs.req.uid, hs.delivered, hreply] at hself
      rw [hself, expected_eq_of_succ cfg hlast]
    refine h.row hlt hnot hlive.whole hf hext.static habort hothers hserves ?_ ?_ ?_ ?_ ?_
    · intro hmem
      -- a finished request leaves the running set
      have hrun : (drainRow ops cfg now isPrefill acc row).state.runningReqs.Sublist
          (acc.state.runningReqs.erase row.1) := by
        rw [heq]
        exact (freeReqResources_ext ops cfg now _ _ _).running
      exact absurd (hrun.subset hmem) hwf.runningNodup.not_mem_erase
    · intro hsched
      rw [hok.sched hsched] at hfin
      cases hfin
    · intro r hne
      rw [hnew]
      exact mem_insert_of_ne hne
    · exact fun _ => hfreed
    · intro _
      rw [hnew]
      exact List.mem_insert_self
  · -- the turn goes on
    obtain ⟨msg, hm, hover | ⟨k, n, hs⟩⟩ := h.serves row.1 hlt hlive.whole
    · exact absurd (h.skipped row.1 (List.mem_cons_self ..) hlive.whole hover.freed) hlive.unended
    obtain ⟨hrow, ⟨n, rfl, htok⟩, hreply⟩ := hs.row hnot hok
    obtain ⟨hself, hothers⟩ := delivOf_append hf.outbox
      (congrArg DrainAcc.reply heq : (drainRow ops cfg now isPrefill acc row).reply = _)
    obtain ⟨anchor, res, hobj⟩ := keep_self ops cfg isPrefill acc.state row.1 row.2
    have hobj' : (drainRow ops cfg now isPrefill acc row).state.reqs row.1 =
        { (acc.state.reqs row.1).appendHost row.2 with
          toolcallAnchorLen := anchor, res := res } := by
      rw [heq]
      exact hobj
    have hrun : (drainRow ops cfg now isPrefill acc row).state.runningReqs =
        acc.state.runningReqs := by
      rw [heq]
      exact keep_running ops cfg isPrefill acc.state row.1 row.2
    have hnew : (drainRow ops cfg now isPrefill acc row).newFinished = acc.newFinished := by
      rw [heq]
    have hcan := canDecode_of_not_finishes cfg hfin
    have hcan' := hcanDecode.trans hcan
    have howns : ((drainRow ops cfg now isPrefill acc row).state.reqs row.1).tableIdx ≠ none := by
      rw [hobj']
      exact hs.owns
    have hserves : Serves cfg (drainRow ops cfg now isPrefill acc row).state sched (d ++ l)
        (delivOf (drainRow ops cfg now isPrefill acc row)) row.1 := by
      refine ⟨msg, hf.admitted ▸ hm, Or.inr ⟨k + 1, n, ?_, howns, ?_, ?_, htok, ?_, ?_, ?_⟩⟩
      · rw [hobj']
        refine ⟨hs.req.uid, hs.req.sampling, hs.req.whole, hs.req.outputLen, hs.req.span, ?_⟩
        show (acc.state.reqs row.1).inputIds ++ [row.2] = _
        rw [hs.req.tokens, hrow, tokensAfter_succ]
      · have hmore : ¬ k + 1 = turnLength cfg msg := by
          unfold rowFinishes at hfin
          rw [hreply] at hfin
          exact of_decide_eq_false hfin
        exact Nat.lt_of_le_of_ne hs.within hmore
      · rw [hmsgUid, hs.req.uid, hs.delivered, hreply] at hself
        rw [hself, List.range_succ, List.map_append]
        rfl
      · rw [hf.length, hs.length]
        omega
      · have := hs.budget
        omega
      · rcases hs.place with hp | hp | ⟨-, hp⟩
        · exact Or.inl (hrun.symm ▸ hp)
        · exact Or.inr (Or.inl hp)
        · rw [hcan] at hp
          cases hp
    refine h.row hlt hnot hlive.whole hf hext.static habort hothers hserves ?_ ?_ ?_ ?_ ?_
    · exact fun _ => ⟨howns, hcan'⟩
    · exact fun _ => ⟨howns, hcan'⟩
    · intro r _
      rw [hnew]
    · intro hm
      rw [hnew] at hm
      exact absurd (h.ended row.1 hm).2 hs.owns
    · exact fun hnone => absurd hnone howns

-- ---------------------------------------------------------------------------
-- A drain
-- ---------------------------------------------------------------------------

variable {cfg}

/-- The invariant looks at five fields of the state. -/
theorem StreamInv.congr {sched : List ReqId} {d l : List (ReqId × Token)}
    {ended newEnded : List ReqId} {deliv deliv' : Uid → List DetokenizeMsg}
    {s s' : State C H ρ} (h : StreamInv cfg sched d l ended newEnded deliv s)
    (hadm : s'.admitted = s.admitted) (hreqs : s'.reqs = s.reqs)
    (hnext : s'.nextReq = s.nextReq) (hpend : s'.pendingList = s.pendingList)
    (hrun : s'.runningReqs = s.runningReqs) (hdeliv : ∀ u, deliv' u = deliv u) :
    StreamInv cfg sched d l ended newEnded deliv' s' := by
  obtain rfl : deliv' = deliv := funext hdeliv
  have hserves : ∀ r, Serves cfg s sched (d ++ l) deliv' r →
      Serves cfg s' sched (d ++ l) deliv' r := fun r hr =>
    hr.congr (fun _ hm => hadm.symm ▸ hm) (congrArg Req.core (congrFun hreqs r)) rfl rfl
      (fun hm => hrun.symm ▸ hm) Or.inr id
  refine ⟨?_, ?_, ?_, ?_, fun r hr hc => hserves r ?_, ?_, ?_, ?_, ?_, ?_, ?_, ?_, ?_, ?_⟩
  · rw [hadm]
    exact h.admitted
  · rw [hnext, hreqs]
    exact h.objects
  · rw [hpend, hadm]
    exact h.pending
  · rw [hpend]
    exact h.single
  · rw [hnext] at hr
    rw [hreqs] at hc
    exact h.serves r hr hc
  · rw [hnext, hreqs, hpend]
    exact h.apart
  · rw [hnext, hreqs]
    exact h.unique
  · rw [hadm, hpend, hnext, hreqs]
    exact h.covered
  · rw [hadm]
    exact h.silent
  · rw [hreqs]
    exact h.skipped
  · rw [hreqs]
    exact h.later
  · rw [hreqs, hnext]
    exact h.ended
  · rw [hrun, hreqs]
    exact h.running
  · rw [hreqs]
    exact h.sched

/-- A drained batch makes room for the one launched behind it. -/
theorem StreamInv.shift {sched : List ReqId} {l : List (ReqId × Token)}
    {ended newEnded ended' : List ReqId} {deliv : Uid → List DetokenizeMsg} {s : State C H ρ}
    (h : StreamInv cfg sched [] l ended newEnded deliv s) (hsub : ∀ r ∈ newEnded, r ∈ ended')
    (hended : ∀ r ∈ ended', r ∈ ended ∨ r ∈ newEnded) :
    StreamInv cfg sched l [] ended' [] deliv s where
  admitted := h.admitted
  objects := h.objects
  pending := h.pending
  single := h.single
  serves r hr hc := by
    rw [List.append_nil]
    exact h.serves r hr hc
  apart := h.apart
  unique := h.unique
  covered := h.covered
  silent := h.silent
  skipped r hr hc htab := hsub r (h.later r hr hc htab)
  later r hr := by cases hr
  ended r hr := h.ended r (hended r (hr.resolve_right List.not_mem_nil))
  running := h.running
  sched := h.sched

theorem stream_publish (acc : DrainAcc C H ρ) (u : Uid) :
    stream (publish acc) u = delivOf acc u := by
  have hreplies : ∀ ms : List DetokenizeMsg,
      (ms.map Reply.detokenize).filterMap (deliveredTo u) =
        ms.filter fun m => decide (m.uid = u) := by
    intro ms
    induction ms with
    | nil => rfl
    | cons m ms ih =>
      by_cases hm : m.uid = u
      · simp [deliveredTo, hm, ih]
      · simp [deliveredTo, hm, ih]
  show (acc.state.outbox ++ acc.reply.map Reply.detokenize).filterMap _ = _
  rw [List.filterMap_append, hreplies]
  rfl

variable (cfg)

/-- The drain of a batch in the middle of its rows. -/
structure StreamFold (sched : List ReqId) (l : List (ReqId × Token)) (s : State C H ρ)
    (b : Batch) (acc : DrainAcc C H ρ) (rows : List (ReqId × Token)) : Prop where
  wf       : Wf acc.state
  inv      : StreamInv cfg sched rows l acc.state.finishedReqs acc.newFinished (delivOf acc)
               acc.state
  ahead    : ∀ row ∈ rows, row.1 < acc.state.nextReq ∧ acc.state.reqs row.1 = s.reqs row.1
  nodup    : (rows.map Prod.fst).Nodup
  rows     : ∀ row ∈ rows, row ∈ b.rows

theorem streamFold_step {sched : List ReqId} {l : List (ReqId × Token)} {s : State C H ρ}
    {b : Batch} (now : Time) (hok : ∀ row ∈ b.rows, DrainRowOk cfg s sched l row)
    {acc : DrainAcc C H ρ} {row : ReqId × Token} {rows : List (ReqId × Token)}
    (h : StreamFold cfg sched l s b acc (row :: rows)) :
    StreamFold cfg sched l s b (drainRow ops cfg now b.isPrefill acc row) rows := by
  have hf := drainRow_frame ops cfg now b.isPrefill acc row
  obtain ⟨hnot, hnd⟩ := List.nodup_cons.mp h.nodup
  obtain ⟨hlt, hsame⟩ := h.ahead row (List.mem_cons_self ..)
  have hne : ∀ row' ∈ rows, row'.1 ≠ row.1 := by
    intro row' hmem heq
    exact hnot (heq ▸ List.mem_map_of_mem hmem)
  have hrow : DrainRowOk cfg acc.state sched l row := by
    obtain ⟨hlater, hsched⟩ := hok row (h.rows row (List.mem_cons_self ..))
    refine ⟨?_, ?_⟩
    · rw [hsame]
      exact hlater
    · unfold rowFinishes at hsched ⊢
      rw [hsame]
      exact hsched
  refine ⟨h.wf.ext (drainRow_ext ops cfg now b.isPrefill acc row), ?_, ?_, hnd,
    fun row' hm => h.rows row' (List.mem_cons_of_mem _ hm)⟩
  · rw [hf.finished]
    exact streamInv_drainRow ops cfg now b.isPrefill h.wf h.inv hlt hnot hrow
  · intro row' hm
    obtain ⟨hlt', hsame'⟩ := h.ahead row' (List.mem_cons_of_mem _ hm)
    exact ⟨hf.nextReq ▸ hlt', (hf.other _ (hne row' hm)).trans hsame'⟩

/-- A drain delivers its rows; the batch launched behind it is the one to drain next. -/
theorem streamInv_processLastData {sched : List ReqId} {l : List (ReqId × Token)}
    {s : State C H ρ} (now : Time) (hwf : Wf s) (b : Option Batch)
    (hb : BatchOk s (b.elim [] Batch.reqs))
    (h : StreamInv cfg sched (b.elim [] Batch.rows) l s.finishedReqs [] (stream s) s)
    (hok : ∀ row ∈ b.elim [] Batch.rows, DrainRowOk cfg s sched l row) :
    StreamInv cfg sched l [] (processLastData ops cfg now s b).finishedReqs []
      (stream (processLastData ops cfg now s b)) (processLastData ops cfg now s b) := by
  cases b with
  | none => exact h.shift nofun fun _ hr => Or.inl hr
  | some b =>
    have h₀ : StreamFold cfg sched l s b ⟨s, [], []⟩ b.rows :=
      ⟨hwf, h.congr rfl rfl rfl rfl rfl fun u => (by simp [delivOf]),
        fun row hm => ⟨hb.2 _ (List.mem_map_of_mem hm), rfl⟩, hb.1, fun _ hm => hm⟩
    have h₁ : StreamFold cfg sched l s b (drainRows ops cfg now s b) [] :=
      drainRows_induction ops cfg now b.isPrefill
        (fun _ _ _ => streamFold_step ops cfg now hok) b.rows _ h₀
    have h₂ := h₁.inv.shift (fun _ hr => hr) fun _ hr => Or.inr hr
    exact h₂.congr rfl rfl rfl rfl rfl (stream_publish _)

end FreeToken.Scheduler
