import FreeToken.Scheduler.AbortIsolation
import FreeToken.Scheduler.Drain

/-!
# The lease invariant

`BusyLeasesLive` is what keeps a session usable: while its lease is busy with the
turn `u`, that turn is queued, or an object of it that still owns its table slot
is running or in a batch that has not been drained.

`LeaseInv` is the inductive form. It also says where an unfinished request can be:
in the running set, in the chosen batch, or, with its output budget spent, in a
batch that is about to be drained and will finish it. This module proves that the
drain and the aborts keep it; `BusyLease` does the rest of the loop.
-/

namespace FreeToken.Scheduler

variable {C H ρ E : Type} (ops : CacheOps C H ρ E) (cfg : Config)

/-- The lease of `sid` is busy with the turn `u`. -/
def Busy (s : State C H ρ) (sid : SessionId) (u : Uid) : Prop :=
  ∃ l, s.sessions sid = some l ∧ l.activeUid = some u

/-- The batches that were forwarded and not drained, as their requests. -/
def launchedReqs (s : State C H ρ) : List ReqId :=
  match s.phase with
  | .launched (some b) => b.reqs
  | _ => []

def scheduledReqs (s : State C H ρ) : List ReqId :=
  match s.phase with
  | .scheduled (some (_, rids)) => rids
  | _ => []

def undrained (s : State C H ρ) : List ReqId := lastReqs s ++ launchedReqs s

/-- `u` is queued, or running or in flight with its table slot still its own. -/
def HasLiveRequest (s : State C H ρ) (u : Uid) : Prop :=
  (∃ p ∈ s.pendingList, p.uid = u) ∨
    ∃ r, (s.reqs r).uid = u ∧ (s.reqs r).tableIdx ≠ none ∧
      (r ∈ s.runningReqs ∨ r ∈ scheduledReqs s ∨ r ∈ undrained s)

def BusyLeasesLive (s : State C H ρ) : Prop :=
  ∀ sid u, Busy s sid u → HasLiveRequest s u

-- ---------------------------------------------------------------------------
-- The invariant
-- ---------------------------------------------------------------------------

/-- A whole request whose resources are its own. -/
structure Unfinished (r : Req ρ) : Prop where
  whole : r.isChunked = false
  owns  : r.tableIdx ≠ none
  kept  : r.aborted = false

/-- The object `r` serves the turn `u` of session `sid`. `sched` is the chosen
batch, `places` the requests of the batches that will still be drained. -/
structure Carries (s : State C H ρ) (sched places : List ReqId) (sid : SessionId) (u : Uid)
    (r : ReqId) : Prop where
  uid        : (s.reqs r).uid = u
  sessionId  : (s.reqs r).sessionId = some sid
  unfinished : Unfinished (s.reqs r)
  place      : r ∈ s.runningReqs ∨ r ∈ sched ∨
                 r ∈ places ∧ (s.reqs r).canDecode = false

def Served (s : State C H ρ) (sched places : List ReqId) (sid : SessionId) (u : Uid) : Prop :=
  (∃ p ∈ s.pendingList, p.uid = u ∧ p.sessionId = some sid) ∨
    ∃ r, Carries s sched places sid u r

/-- `x` is the turn being handled right now, which took its lease but is not queued yet. -/
structure LeaseInv (x : Option (SessionId × Uid)) (sched places : List ReqId)
    (s : State C H ρ) : Prop where
  chunkOwned : ∀ p ∈ s.pendingList, ∀ r, p.chunkedReq = some r →
                 (s.reqs r).tableIdx ≠ none ∧ (s.reqs r).aborted = false
  finished   : ∀ r ∈ s.finishedReqs, r < s.nextReq ∧ (s.reqs r).tableIdx = none
  decodes    : ∀ r ∈ s.runningReqs, (s.reqs r).canDecode = true
  placed     : ∀ r ∈ places, Unfinished (s.reqs r) →
                 r ∈ s.runningReqs ∨ (s.reqs r).canDecode = false
  distinct   : ∀ sid sid' u, Busy s sid u → Busy s sid' u → sid = sid'
  served     : ∀ sid u, Busy s sid u → some (sid, u) ≠ x → Served s sched places sid u

/-- An unfinished request in a batch was not finished by an earlier drain. -/
theorem LeaseInv.rowLive {x : Option (SessionId × Uid)} {sched places : List ReqId}
    {s : State C H ρ} (h : LeaseInv x sched places s) {r : ReqId}
    (hr : Unfinished (s.reqs r)) : RowLive s r :=
  ⟨hr.whole, hr.kept, fun hf => hr.owns (h.finished r hf).2⟩

theorem Served.congr {s s' : State C H ρ} {sched places : List ReqId} {sid : SessionId}
    {u : Uid} (h : Served s sched places sid u) (hreqs : s'.reqs = s.reqs)
    (hpend : s'.pendingList = s.pendingList) (hrun : s'.runningReqs = s.runningReqs) :
    Served s' sched places sid u := by
  rcases h with ⟨p, hp, hpu, hps⟩ | ⟨r, hr⟩
  · exact Or.inl ⟨p, hpend ▸ hp, hpu, hps⟩
  · exact Or.inr ⟨r, by rw [hreqs]; exact hr.uid, by rw [hreqs]; exact hr.sessionId,
      by rw [hreqs]; exact hr.unfinished, by rw [hreqs, hrun]; exact hr.place⟩

/-- Leases may go idle or change hands: the invariant only looks at the busy ones. -/
theorem LeaseInv.busy {x : Option (SessionId × Uid)} {sched places : List ReqId}
    {s s' : State C H ρ} (h : LeaseInv x sched places s)
    (hbusy : ∀ sid u, Busy s' sid u → Busy s sid u)
    (hreqs : s'.reqs = s.reqs) (hnext : s'.nextReq = s.nextReq)
    (hpend : s'.pendingList = s.pendingList) (hrun : s'.runningReqs = s.runningReqs)
    (hfin : s'.finishedReqs = s.finishedReqs) : LeaseInv x sched places s' where
  chunkOwned := by
    rw [hpend, hreqs]
    exact h.chunkOwned
  finished := by
    rw [hfin, hreqs, hnext]
    exact h.finished
  decodes := by
    rw [hrun, hreqs]
    exact h.decodes
  placed := by
    rw [hrun, hreqs]
    exact h.placed
  distinct sid sid' u hb hb' := h.distinct sid sid' u (hbusy sid u hb) (hbusy sid' u hb')
  served sid u hb hx := (h.served sid u (hbusy sid u hb) hx).congr hreqs hpend hrun

theorem Retained.busy {s s' : State C H ρ} {uid : Uid}
    (h : Retained s.sessions s'.sessions uid) {sid : SessionId} {u : Uid}
    (hb : Busy s' sid u) : Busy s sid u := by
  obtain ⟨l, hl, hu⟩ := hb
  rcases h.other sid with heq | ⟨_, l', _, _, hl', hu'⟩
  · exact ⟨l, heq ▸ hl, hu⟩
  · rw [hl', Option.some.injEq] at hl
    rw [← hl, hu'] at hu
    cases hu

-- ---------------------------------------------------------------------------
-- The drain
-- ---------------------------------------------------------------------------

/-- A finishing row leaves the lease of its turn idle, images apart. -/
theorem finish_idles_lease (now : Time) {s : State C H ρ} {rid : ReqId} {tok : Token}
    {sid : SessionId} (howns : (s.reqs rid).tableIdx ≠ none)
    (hsid : (s.reqs rid).sessionId = some sid) (hmm : (s.reqs rid).mmItems = []) :
    ¬ Busy (freeReqResources ops cfg now
        (removeRunning (appendToken cfg s rid tok true) rid) rid
        (s.reqs rid).sessionId.isSome) sid (s.reqs rid).uid := by
  obtain ⟨anchor, hself⟩ := appendToken_self cfg s rid tok true
  have hreq : (removeRunning (appendToken cfg s rid tok true) rid).reqs rid =
      { (s.reqs rid).appendHost tok with toolcallAnchorLen := anchor } := hself
  have hsame : (removeRunning (appendToken cfg s rid tok true) rid).sessions = s.sessions := rfl
  obtain ⟨slot, hslot⟩ := Option.ne_none_iff_exists'.mp howns
  have htab : ((removeRunning (appendToken cfg s rid tok true) rid).reqs rid).tableIdx =
      some slot := by
    rw [hreq]
    exact hslot
  rintro ⟨l, hl, hu⟩
  obtain ⟨cache, sessions, aliases, res, heq, hret, -, hidle⟩ :=
    freeReqResources_cases ops cfg now (s.reqs rid).sessionId.isSome htab
  have hold : Busy s sid (s.reqs rid).uid := by
    have hback : Retained s.sessions (freeReqResources ops cfg now
        (removeRunning (appendToken cfg s rid tok true) rid) rid
        (s.reqs rid).sessionId.isSome).sessions (s.reqs rid).uid := by
      rw [heq]
      rw [hreq] at hret
      exact hret
    exact hback.busy ⟨l, hl, hu⟩
  obtain ⟨l₀, hl₀, hu₀⟩ := hold
  rw [hreq] at hidle
  obtain ⟨l', hl', hu'⟩ := hidle sid l₀ (by rw [hsid]; rfl) hsid hl₀ hu₀ hmm
  have hl₁ : sessions sid = some l := by
    rw [heq] at hl
    exact hl
  rw [hl', Option.some.injEq] at hl₁
  rw [← hl₁, hu'] at hu
  cases hu

/-- What one row does to an unfinished request of the invariant: it is finished
and its lease idle, or it goes on and is still running. -/
theorem drainRow_unfinished {x : Option (SessionId × Uid)} {sched places : List ReqId}
    (now : Time) (isPrefill : Bool) {acc : DrainAcc C H ρ} {row : ReqId × Token}
    (h : LeaseInv x sched (row.1 :: places) acc.state)
    (hr : Unfinished (acc.state.reqs row.1))
    (hok : rowFinishes cfg acc.state row = true → ∀ sid,
      (acc.state.reqs row.1).sessionId = some sid →
      some (sid, (acc.state.reqs row.1).uid) ≠ x →
      Busy acc.state sid (acc.state.reqs row.1).uid → (acc.state.reqs row.1).mmItems = []) :
    (((drainRow ops cfg now isPrefill acc row).state.reqs row.1).tableIdx = none ∧
      ∀ sid, (acc.state.reqs row.1).sessionId = some sid →
        some (sid, (acc.state.reqs row.1).uid) ≠ x →
        ¬ Busy (drainRow ops cfg now isPrefill acc row).state sid
          (acc.state.reqs row.1).uid) ∨
    (Unfinished ((drainRow ops cfg now isPrefill acc row).state.reqs row.1) ∧
      ((drainRow ops cfg now isPrefill acc row).state.reqs row.1).canDecode = true ∧
      row.1 ∈ (drainRow ops cfg now isPrefill acc row).state.runningReqs) := by
  have hlive := h.rowLive hr
  rcases drainRow_cases ops cfg now isPrefill acc row with
    ⟨hidle, -⟩ | ⟨ha, -, -⟩ | ⟨ha, -, -⟩ | ⟨-, hfin, heq⟩ | ⟨-, hfin, heq⟩
  · -- a live row is not idle, and not aborted
    rcases hidle.2 with hc | hf
    · rw [hlive.whole] at hc
      cases hc
    · exact absurd hf hlive.unended
  · rw [hlive.running] at ha
    cases ha
  · rw [hlive.running] at ha
    cases ha
  · -- it finishes: its slot is free, and its lease idle
    left
    rw [heq]
    refine ⟨freeReqResources_tableIdx ops cfg now _ _ _, fun sid hsid hx hb => ?_⟩
    have hback : Busy acc.state sid (acc.state.reqs row.1).uid := by
      have hf := drainRow_frame ops cfg now isPrefill acc row
      rw [heq] at hf
      exact hf.leases.busy hb
    exact finish_idles_lease ops cfg now hr.owns hsid (hok hfin sid hsid hx hback) hb
  · -- it goes on
    right
    rw [heq]
    obtain ⟨anchor, res, hself⟩ := keep_self ops cfg isPrefill acc.state row.1 row.2
    have hcan := canDecode_of_not_finishes cfg hfin
    refine ⟨?_, ?_, ?_⟩
    · dsimp only
      rw [hself]
      exact ⟨hr.whole, hr.owns, hr.kept⟩
    · dsimp only
      rw [hself]
      exact hcan
    · dsimp only
      rw [keep_running]
      rcases h.placed row.1 (List.mem_cons_self ..) hr with hrun | hcan'
      · exact hrun
      · rw [hcan] at hcan'
        cases hcan'

theorem leaseInv_drainRow {x : Option (SessionId × Uid)} {sched places : List ReqId}
    (now : Time) (isPrefill : Bool) {acc : DrainAcc C H ρ} {row : ReqId × Token}
    (hwf : Wf acc.state) (h : LeaseInv x sched (row.1 :: places) acc.state)
    (hok : Unfinished (acc.state.reqs row.1) → rowFinishes cfg acc.state row = true →
      ∀ sid, (acc.state.reqs row.1).sessionId = some sid →
        some (sid, (acc.state.reqs row.1).uid) ≠ x →
        Busy acc.state sid (acc.state.reqs row.1).uid → (acc.state.reqs row.1).mmItems = []) :
    LeaseInv x sched places (drainRow ops cfg now isPrefill acc row).state := by
  have hf := drainRow_frame ops cfg now isPrefill acc row
  have hext := drainRow_ext ops cfg now isPrefill acc row
  have hun := fun hr => drainRow_unfinished ops cfg now isPrefill h hr (hok hr)
  -- an unfinished object after the row was unfinished before it
  have hback : Unfinished ((drainRow ops cfg now isPrefill acc row).state.reqs row.1) →
      Unfinished (acc.state.reqs row.1) := by
    intro hr
    refine ⟨(Req.isChunked_of_static (hext.static row.1)).symm.trans hr.whole,
      fun hnone => hr.owns (hf.freed hnone), ?_⟩
    by_contra ha
    rw [Bool.not_eq_false] at ha
    rcases drainRow_cases ops cfg now isPrefill acc row with
      ⟨hi, -⟩ | ⟨-, -, heq⟩ | ⟨-, -, heq⟩ | ⟨hl, -, -⟩ | ⟨hl, -, -⟩
    · exact absurd (ha.symm.trans hi.1) (by decide)
    · refine hr.owns ?_
      rw [heq]
      exact freeReqResources_tableIdx ops cfg now _ _ _
    · refine hr.owns ?_
      rw [heq]
      exact freeReqResources_tableIdx ops cfg now _ _ _
    · rw [hl.running] at ha
      cases ha
    · rw [hl.running] at ha
      cases ha
  refine ⟨?_, ?_, ?_, ?_, fun sid sid' u hb hb' => h.distinct sid sid' u
    (hf.leases.busy hb) (hf.leases.busy hb'), ?_⟩
  · intro p hp r hpr
    rw [hf.pending] at hp
    have hown := h.chunkOwned p hp r hpr
    by_cases hr : r = row.1
    · subst hr
      rw [drainRow_chunk ops cfg now isPrefill (hwf.chunk p hp _ hpr).isChunked hown.2]
      exact hown
    · rw [hf.other r hr]
      exact hown
  · intro r hr
    rw [hf.finished] at hr
    obtain ⟨hlt, htab⟩ := h.finished r hr
    refine ⟨hf.nextReq ▸ hlt, ?_⟩
    by_cases hne : r = row.1
    · subst hne
      exact hf.freed htab
    · rw [hf.other r hne]
      exact htab
  · intro r hr
    rw [drainRow_canDecode]
    exact h.decodes r (hext.running.subset hr)
  · intro r hr hunf
    by_cases hne : r = row.1
    · subst hne
      rcases hun (hback hunf) with ⟨htab, -⟩ | ⟨-, -, hrun⟩
      · exact absurd htab hunf.owns
      · exact Or.inl hrun
    · rw [hf.other r hne] at hunf ⊢
      rw [hf.running r hne]
      exact h.placed r (List.mem_cons_of_mem _ hr) hunf
  · intro sid u hb hx
    rcases h.served sid u (hf.leases.busy hb) hx with ⟨p, hp, hpu, hps⟩ | ⟨r, hr⟩
    · exact Or.inl ⟨p, hf.pending ▸ hp, hpu, hps⟩
    · right
      by_cases hne : r = row.1
      · subst hne
        rcases hun hr.unfinished with ⟨-, hidle⟩ | ⟨hunf, -, hrun⟩
        · rw [hr.uid] at hidle
          exact absurd hb (hidle sid hr.sessionId hx)
        · exact ⟨row.1, hf.uid.trans hr.uid,
            (Req.sessionId_of_static (hext.static row.1)).trans hr.sessionId, hunf, Or.inl hrun⟩
      · refine ⟨r, ?_, ?_, ?_, ?_⟩
        · rw [hf.other r hne]
          exact hr.uid
        · rw [hf.other r hne]
          exact hr.sessionId
        · rw [hf.other r hne]
          exact hr.unfinished
        · rw [hf.running r hne, hf.other r hne]
          rcases hr.place with hp | hp | ⟨hp, hc⟩
          · exact Or.inl hp
          · exact Or.inr (Or.inl hp)
          · exact Or.inr (Or.inr ⟨(List.mem_cons.mp hp).resolve_left hne, hc⟩)

/-- No turn that the drain of `b` finishes has images while its lease is busy with it. -/
def DrainOk (s : State C H ρ) (b : Option Batch) : Prop :=
  ∀ row ∈ b.elim [] Batch.rows, RowLive s row.1 → rowFinishes cfg s row = true →
    ∀ sid, (s.reqs row.1).sessionId = some sid → Busy s sid (s.reqs row.1).uid →
      (s.reqs row.1).mmItems = []

/-- `DrainOk` with the turn `x`, which took its lease but has no request yet, left out. -/
def DrainOkFor (x : Option (SessionId × Uid)) (s : State C H ρ) (b : Option Batch) : Prop :=
  ∀ row ∈ b.elim [] Batch.rows, RowLive s row.1 → rowFinishes cfg s row = true →
    ∀ sid, (s.reqs row.1).sessionId = some sid → some (sid, (s.reqs row.1).uid) ≠ x →
      Busy s sid (s.reqs row.1).uid → (s.reqs row.1).mmItems = []

theorem DrainOk.for_none {s : State C H ρ} {b : Option Batch} (h : DrainOk cfg s b) :
    DrainOkFor cfg none s b :=
  fun row hm hlive hfin sid hsid _ hb => h row hm hlive hfin sid hsid hb

/-- The drain of a batch in the middle of its rows. -/
structure DrainFold (x : Option (SessionId × Uid)) (sched places : List ReqId)
    (s : State C H ρ) (b : Batch) (acc : DrainAcc C H ρ) (rows : List (ReqId × Token)) :
    Prop where
  wf       : Wf acc.state
  inv      : LeaseInv x sched (rows.map Prod.fst ++ places) acc.state
  ended    : ∀ r ∈ acc.newFinished, r < acc.state.nextReq ∧
               (acc.state.reqs r).tableIdx = none
  ahead    : ∀ row ∈ rows, row.1 < acc.state.nextReq ∧ acc.state.reqs row.1 = s.reqs row.1
  busy     : ∀ sid u, Busy acc.state sid u → Busy s sid u
  finished : acc.state.finishedReqs = s.finishedReqs
  nodup    : (rows.map Prod.fst).Nodup
  rows     : ∀ row ∈ rows, row ∈ b.rows

theorem drainFold_step {x : Option (SessionId × Uid)} {sched places : List ReqId}
    {s : State C H ρ} {b : Batch} (now : Time) (hok : DrainOkFor cfg x s (some b))
    {acc : DrainAcc C H ρ} {row : ReqId × Token} {rows : List (ReqId × Token)}
    (h : DrainFold x sched places s b acc (row :: rows)) :
    DrainFold x sched places s b (drainRow ops cfg now b.isPrefill acc row) rows := by
  have hf := drainRow_frame ops cfg now b.isPrefill acc row
  have hext := drainRow_ext ops cfg now b.isPrefill acc row
  obtain ⟨hnot, hnd⟩ := List.nodup_cons.mp h.nodup
  obtain ⟨hlt, hsame⟩ := h.ahead row (List.mem_cons_self ..)
  have hne : ∀ row' ∈ rows, row'.1 ≠ row.1 := by
    intro row' hmem heq
    exact hnot (heq ▸ List.mem_map_of_mem hmem)
  refine ⟨h.wf.ext hext, ?_, ?_, ?_, fun sid u hb => h.busy sid u (hf.leases.busy hb),
    hf.finished.trans h.finished, hnd, fun row' hm => h.rows row' (List.mem_cons_of_mem _ hm)⟩
  · refine leaseInv_drainRow ops cfg now b.isPrefill h.wf h.inv ?_
    intro hunf hfin sid hsid hx hb
    have hlive := h.inv.rowLive hunf
    have hlive' : RowLive s row.1 :=
      ⟨hsame ▸ hlive.whole, hsame ▸ hlive.running, h.finished ▸ hlive.unended⟩
    have hfin' : rowFinishes cfg s row = true := by
      rw [rowFinishes, hsame] at hfin
      exact hfin
    rw [hsame] at hsid hx hb ⊢
    exact hok row (h.rows row (List.mem_cons_self ..)) hlive' hfin' sid hsid hx
      (h.busy _ _ hb)
  · intro r hr
    rcases drainRow_newFinished ops cfg now b.isPrefill hr with hr | ⟨rfl, htab⟩
    · obtain ⟨hlt', htab⟩ := h.ended r hr
      refine ⟨hf.nextReq ▸ hlt', ?_⟩
      by_cases hr' : r = row.1
      · subst hr'
        exact hf.freed htab
      · rw [hf.other r hr']
        exact htab
    · exact ⟨hf.nextReq ▸ hlt, htab⟩
  · intro row' hm
    obtain ⟨hlt', hsame'⟩ := h.ahead row' (List.mem_cons_of_mem _ hm)
    exact ⟨hf.nextReq ▸ hlt', (hf.other _ (hne row' hm)).trans hsame'⟩

/-- A drain takes its batch off the places an unfinished request may be at. -/
theorem leaseInv_processLastData {x : Option (SessionId × Uid)} {sched places : List ReqId}
    {s : State C H ρ} (now : Time) (hwf : Wf s) (b : Option Batch)
    (hb : BatchOk s (b.elim [] Batch.reqs))
    (h : LeaseInv x sched (b.elim [] Batch.reqs ++ places) s) (hok : DrainOkFor cfg x s b) :
    LeaseInv x sched places (processLastData ops cfg now s b) ∧
      ∀ sid u, Busy (processLastData ops cfg now s b) sid u → Busy s sid u := by
  cases b with
  | none => exact ⟨h, fun _ _ hbusy => hbusy⟩
  | some b =>
    have h₀ : DrainFold x sched places s b ⟨s, [], []⟩ b.rows :=
      ⟨hwf, h, by simp, fun row hm => ⟨hb.2 _ (List.mem_map_of_mem hm), rfl⟩,
        fun _ _ hbusy => hbusy, rfl, hb.1, fun _ hm => hm⟩
    have h₁ : DrainFold x sched places s b (drainRows ops cfg now s b) [] :=
      drainRows_induction ops cfg now b.isPrefill
        (fun _ _ _ => drainFold_step ops cfg now hok) b.rows _ h₀
    exact ⟨⟨h₁.inv.chunkOwned, h₁.ended, h₁.inv.decodes, h₁.inv.placed, h₁.inv.distinct,
      fun sid u hbusy hx => (h₁.inv.served sid u hbusy hx).congr rfl rfl rfl⟩, h₁.busy⟩

-- ---------------------------------------------------------------------------
-- Aborts and closes
-- ---------------------------------------------------------------------------

/-- `s'` differs from `s` in the object `found`, which serves no one any more. -/
structure DropFrame (found : Option ReqId) (s s' : State C H ρ) : Prop where
  sessions : s'.sessions = s.sessions
  pending  : s'.pendingList = s.pendingList
  running  : s'.runningReqs = s.runningReqs
  finished : s'.finishedReqs = s.finishedReqs
  other    : ∀ r, found ≠ some r → s'.reqs r = s.reqs r
  freed    : ∀ r, (s.reqs r).tableIdx = none → (s'.reqs r).tableIdx = none
  canDecode : ∀ r, (s'.reqs r).canDecode = (s.reqs r).canDecode
  dropped  : ∀ r, found = some r → ¬ Unfinished (s'.reqs r)

theorem dropFrame_update {s s' : State C H ρ} {r : ReqId} {req : Req ρ}
    (hreqs : s'.reqs = Function.update s.reqs r req)
    (hsess : s'.sessions = s.sessions) (hpend : s'.pendingList = s.pendingList)
    (hrun : s'.runningReqs = s.runningReqs) (hfin : s'.finishedReqs = s.finishedReqs)
    (hfreed : (s.reqs r).tableIdx = none → req.tableIdx = none)
    (hcan : req.canDecode = (s.reqs r).canDecode) (hun : ¬ Unfinished req) :
    DropFrame (some r) s s' where
  sessions := hsess
  pending := hpend
  running := hrun
  finished := hfin
  other r' hr' := by
    rw [hreqs, Function.update_of_ne fun h => hr' (congrArg some h.symm)]
  freed r' h := by
    by_cases hr : r' = r
    · subst hr
      rw [hreqs, Function.update_self]
      exact hfreed h
    · rw [hreqs, Function.update_of_ne hr]
      exact h
  canDecode r' := by
    by_cases hr : r' = r
    · subst hr
      rw [hreqs, Function.update_self]
      exact hcan
    · rw [hreqs, Function.update_of_ne hr]
  dropped r' h := by
    cases h
    rw [hreqs, Function.update_self]
    exact hun

theorem dropReq_frame (now : Time) (s : State C H ρ) (found : Option ReqId) :
    DropFrame found s (dropReq ops cfg now s found) := by
  rcases dropReq_cases ops cfg now s found with
    ⟨hnone, h⟩ | ⟨r, rfl, h⟩ | ⟨r, slot, c, al, res, rfl, -, h⟩
  · rw [h]
    exact ⟨rfl, rfl, rfl, rfl, fun _ _ => rfl, fun _ ht => ht, fun _ => rfl,
      fun r hr hu => hu.owns (hnone r hr)⟩
  · rw [h]
    exact dropFrame_update rfl rfl rfl rfl rfl id rfl fun hu => by cases hu.kept
  · rw [h]
    exact dropFrame_update rfl rfl rfl rfl rfl (fun _ => rfl) rfl fun hu => hu.owns rfl

/-- A removed queue entry takes the only pointer to its chunk along. -/
private theorem chunkRefs_removed {l₁ l₂ : List PendingReq} {p q : PendingReq} {r : ReqId}
    (hnd : (chunkRefs (l₁ ++ p :: l₂)).Nodup) (hp : p.chunkedReq = some r)
    (hq : q ∈ l₁ ++ l₂) : q.chunkedReq ≠ some r := by
  intro hqr
  have hrefs : chunkRefs (l₁ ++ p :: l₂) = chunkRefs l₁ ++ r :: chunkRefs l₂ := by
    simp [chunkRefs, hp]
  rw [hrefs, List.nodup_middle] at hnd
  have hmem : r ∈ chunkRefs l₁ ++ chunkRefs l₂ := by
    rcases List.mem_append.mp hq with hq | hq
    · exact List.mem_append_left _ (List.mem_filterMap.mpr ⟨q, hq, hqr⟩)
    · exact List.mem_append_right _ (List.mem_filterMap.mpr ⟨q, hq, hqr⟩)
  exact (List.nodup_cons.mp hnd).1 hmem

/-- Aborting a uid no lease is busy with keeps the invariant. -/
theorem leaseInv_abortUid {x : Option (SessionId × Uid)} {sched places : List ReqId}
    {s : State C H ρ} (now : Time) (hwf : Wf s) (h : LeaseInv x sched places s) {v : Uid}
    (hnone : ∀ sid, ¬ Busy s sid v) :
    LeaseInv x sched places (abortUid ops cfg now s v) := by
  obtain ⟨pending, running, heq, hpend, hrun, hfound⟩ := abortReq_cases s v
  have hext := abortUid_ext ops cfg now s v
  have hd : DropFrame (abortReq s v).1 { s with pendingList := pending, runningReqs := running }
      (abortUid ops cfg now s v) := by
    rw [abortUid, heq]
    exact dropReq_frame ops cfg now _ _
  have hsess : (abortUid ops cfg now s v).sessions = s.sessions := hd.sessions
  have hbusy : ∀ sid u, Busy (abortUid ops cfg now s v) sid u → Busy s sid u := by
    rintro sid u ⟨l, hl, hu⟩
    exact ⟨l, hsess ▸ hl, hu⟩
  have hfoundUid : ∀ r, (abortReq s v).1 = some r → (s.reqs r).uid = v :=
    fun r hr => abortReq_uid hwf hr
  -- the dropped object is the chunk of no prompt that is still queued
  have hchunk : ∀ p ∈ pending, ∀ r, p.chunkedReq = some r → (abortReq s v).1 ≠ some r := by
    intro p hp r hpr hr
    rcases hfound r hr with ⟨l₁, q, l₂, hl, hl', -, hqr⟩ | ⟨hmem, -⟩
    · have hnd := hwf.chunkNodup
      rw [hl] at hnd
      exact chunkRefs_removed hnd hqr (hl' ▸ hp) hpr
    · have hps : p ∈ s.pendingList := by
        rcases hpend with rfl | rfl
        · exact hp
        · exact List.mem_of_mem_eraseP hp
      have hc := (hwf.chunk p hps r hpr).isChunked
      rw [(hwf.running r hmem).2] at hc
      cases hc
  have hsub : ∀ r, r ∈ running → r ∈ s.runningReqs := by
    intro r hr
    rcases hrun with rfl | ⟨r', -, rfl⟩
    · exact hr
    · exact List.mem_of_mem_erase hr
  have hkeep : ∀ r ∈ s.runningReqs, (abortReq s v).1 ≠ some r → r ∈ running := by
    intro r hr hne
    rcases hrun with rfl | ⟨r', hr', rfl⟩
    · exact hr
    · exact (List.mem_erase_of_ne fun h : r = r' => hne (h ▸ hr')).mpr hr
  refine ⟨?_, ?_, ?_, ?_, fun sid sid' u hb hb' => h.distinct sid sid' u (hbusy sid u hb)
    (hbusy sid' u hb'), ?_⟩
  · intro p hp r hpr
    rw [hd.pending] at hp
    rw [hd.other r (hchunk p hp r hpr)]
    refine h.chunkOwned p ?_ r hpr
    rcases hpend with rfl | rfl
    · exact hp
    · exact List.mem_of_mem_eraseP hp
  · intro r hr
    rw [hd.finished] at hr
    obtain ⟨hlt, htab⟩ := h.finished r hr
    exact ⟨hext.nextReq ▸ hlt, hd.freed r htab⟩
  · intro r hr
    rw [hd.running] at hr
    rw [hd.canDecode r]
    exact h.decodes r (hsub r hr)
  · intro r hr hunf
    have hne : (abortReq s v).1 ≠ some r := fun hf => hd.dropped r hf hunf
    rw [hd.other r hne] at hunf ⊢
    rw [hd.running]
    exact (h.placed r hr hunf).imp (fun hm => hkeep r hm hne) id
  · intro sid u hb hx
    have hbs := hbusy sid u hb
    have huv : u ≠ v := fun heq' => hnone sid (heq' ▸ hbs)
    rcases h.served sid u hbs hx with ⟨p, hp, hpu, hps⟩ | ⟨r, hr⟩
    · left
      refine ⟨p, ?_, hpu, hps⟩
      rw [hd.pending]
      rcases hpend with rfl | rfl
      · exact hp
      · refine (List.mem_eraseP_of_neg ?_).mpr hp
        rw [hpu]
        simpa using huv
    · right
      have hne : (abortReq s v).1 ≠ some r := by
        intro hf
        exact huv (hr.uid.symm.trans (hfoundUid r hf))
      refine ⟨r, ?_, ?_, ?_, ?_⟩
      · rw [hd.other r hne]
        exact hr.uid
      · rw [hd.other r hne]
        exact hr.sessionId
      · rw [hd.other r hne]
        exact hr.unfinished
      · rw [hd.other r hne, hd.running]
        exact hr.place.imp (fun hm => hkeep r hm hne) id

theorem busy_popLease {s : State C H ρ} {sid : SessionId} {l : SessionLease H}
    {sid' : SessionId} {u : Uid} (hb : Busy (popLease ops s sid l) sid' u) :
    sid' ≠ sid ∧ Busy s sid' u := by
  obtain ⟨l', hl', hu⟩ := hb
  have hne : sid' ≠ sid := by
    rintro rfl
    have : (popLease ops s sid' l).sessions sid' = none := Function.update_self ..
    rw [this] at hl'
    cases hl'
  have hsame : (popLease ops s sid l).sessions sid' = s.sessions sid' :=
    Function.update_of_ne hne ..
  exact ⟨hne, l', hsame ▸ hl', hu⟩

theorem leaseInv_closeSession {x : Option (SessionId × Uid)} {sched places : List ReqId}
    {s : State C H ρ} (now : Time) (hwf : Wf s) (h : LeaseInv x sched places s)
    (sid : SessionId) : LeaseInv x sched places (closeSession ops cfg now s sid) := by
  unfold closeSession
  split
  · exact h
  · rename_i l hl
    have hpop : LeaseInv x sched places (popLease ops s sid l) :=
      h.busy (fun sid' u hb => (busy_popLease ops hb).2) rfl rfl rfl rfl rfl
    split
    · exact hpop
    · rename_i u hu
      refine (leaseInv_abortUid ops cfg now (hwf.ext (popLease_ext ops s sid l)) hpop ?_).busy
        (fun _ _ hb => hb) rfl rfl rfl rfl rfl
      intro sid' hb
      obtain ⟨hne, hb'⟩ := busy_popLease ops hb
      exact hne (h.distinct sid' sid u hb' ⟨l, hl, hu⟩)

theorem closeSession_busy (now : Time) {s : State C H ρ} {sid sid' : SessionId} {u : Uid}
    (hb : Busy (closeSession ops cfg now s sid) sid' u) : sid' ≠ sid ∧ Busy s sid' u := by
  obtain ⟨l, hl, hu⟩ := hb
  rw [closeSession_sessions] at hl
  have hne : sid' ≠ sid := by
    rintro rfl
    rw [Function.update_self] at hl
    cases hl
  rw [Function.update_of_ne hne] at hl
  exact ⟨hne, l, hl, hu⟩

theorem leaseInv_processAbort {sched places : List ReqId} {s : State C H ρ} (now : Time)
    (hwf : Wf s) (h : LeaseInv none sched places s) {u : Uid} {sid : Option SessionId}
    (hok : ∀ target, Busy s target u → abortedSession s u sid = some target) :
    LeaseInv none sched places (processAbort ops cfg now s u sid) := by
  have hwf₁ : Wf (noteAbort s u) := hwf.ext (noteAbort_ext s u)
  have h₁ : LeaseInv none sched places (noteAbort s u) :=
    h.busy (fun _ _ hb => hb) rfl rfl rfl rfl rfl
  have h₂ : LeaseInv none sched places
      (closeSession? ops cfg now (noteAbort s u) (abortedSession s u sid)) := by
    cases abortedSession s u sid with
    | none => exact h₁
    | some target => exact leaseInv_closeSession ops cfg now hwf₁ h₁ target
  have hnone : ∀ sid', ¬ Busy (closeSession? ops cfg now (noteAbort s u)
      (abortedSession s u sid)) sid' u := by
    intro sid' hb
    cases htarget : abortedSession s u sid with
    | none =>
      rw [htarget] at hb
      have := hok sid' hb
      rw [htarget] at this
      cases this
    | some target =>
      rw [htarget] at hb
      obtain ⟨hne, hb'⟩ := closeSession_busy ops cfg now hb
      have := hok sid' hb'
      rw [htarget] at this
      exact hne (Option.some.inj this).symm
  exact (leaseInv_abortUid ops cfg now
    (hwf₁.ext (closeSession?_ext ops cfg now _ _)) h₂ hnone).busy
    (fun _ _ hb => hb) rfl rfl rfl rfl rfl

theorem leaseInv_processClose {sched places : List ReqId} {s : State C H ρ} (now : Time)
    (hwf : Wf s) (h : LeaseInv none sched places s) (sid : SessionId) (requestId : Nat) :
    LeaseInv none sched places (processClose ops cfg now s sid requestId) := by
  have hclose := leaseInv_closeSession ops cfg now hwf h sid
  unfold processClose
  split
  · exact h.busy (fun _ _ hb => hb) rfl rfl rfl rfl rfl
  · dsimp only
    split
    · exact hclose.busy (fun _ _ hb => hb) rfl rfl rfl rfl rfl
    · split
      · exact hclose.busy (fun _ _ hb => hb) rfl rfl rfl rfl rfl
      · exact hclose.busy (fun _ _ hb => hb) rfl rfl rfl rfl rfl

theorem leaseInv_expireSessions {sched places : List ReqId} {s : State C H ρ} (now : Time)
    (hwf : Wf s) (h : LeaseInv none sched places s) :
    LeaseInv none sched places (expireSessions ops cfg now s) := by
  unfold expireSessions
  generalize expiredSessions now s = sids
  induction sids generalizing s with
  | nil => exact h
  | cons sid sids ih =>
    exact ih (hwf.ext (closeSession_ext ops cfg now s sid))
      (leaseInv_closeSession ops cfg now hwf h sid)

end FreeToken.Scheduler
