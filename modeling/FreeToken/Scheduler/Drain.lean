import FreeToken.Scheduler.Objects

/-!
# The drain of a batch

`_process_last_data` row by row: the five things a row can be (`drainRow_cases`),
what any row leaves alone (`drainRow_frame`), and the induction over the rows of
a batch (`drainRows_induction`) that the run theorems use.
-/

namespace FreeToken.Scheduler

variable {C H ρ E : Type} (ops : CacheOps C H ρ E) (cfg : Config)

/-- The row's request is still being served: a whole request, not aborted, not
finished by an earlier drain. -/
structure RowLive (s : State C H ρ) (rid : ReqId) : Prop where
  whole    : (s.reqs rid).isChunked = false
  running  : (s.reqs rid).aborted = false
  unended  : rid ∉ s.finishedReqs

/-- The drain's finish test of a row whose request is still being served. -/
def rowFinishes (s : State C H ρ) (row : ReqId × Token) : Bool :=
  (detokenizeMsg cfg ((s.reqs row.1).appendHost row.2) row.2).finished

/-- The request reached a drain point with nothing more to do: an intermediate
chunk, or the extra decode step of a request that has already finished. -/
def RowIdle (s : State C H ρ) (rid : ReqId) : Prop :=
  (s.reqs rid).aborted = false ∧ ((s.reqs rid).isChunked = true ∨ rid ∈ s.finishedReqs)

/-- Everything one row can be. -/
theorem drainRow_cases (now : Time) (isPrefill : Bool) (acc : DrainAcc C H ρ)
    (row : ReqId × Token) :
    (RowIdle acc.state row.1 ∧ drainRow ops cfg now isPrefill acc row = acc) ∨
    ((acc.state.reqs row.1).aborted = true ∧ (acc.state.reqs row.1).isChunked = true ∧
      drainRow ops cfg now isPrefill acc row =
        { acc with state := freeReqResources ops cfg now acc.state row.1 false }) ∨
    ((acc.state.reqs row.1).aborted = true ∧ (acc.state.reqs row.1).isChunked = false ∧
      drainRow ops cfg now isPrefill acc row =
        { acc with
          state := freeReqResources ops cfg now (removeRunning acc.state row.1) row.1 false
          newFinished := acc.newFinished.insert row.1 }) ∨
    (RowLive acc.state row.1 ∧ rowFinishes cfg acc.state row = true ∧
      drainRow ops cfg now isPrefill acc row =
        { state := freeReqResources ops cfg now
            (removeRunning (appendToken cfg acc.state row.1 row.2 true) row.1) row.1
            (acc.state.reqs row.1).sessionId.isSome
          newFinished := acc.newFinished.insert row.1
          reply := acc.reply ++
            [detokenizeMsg cfg ((acc.state.reqs row.1).appendHost row.2) row.2] }) ∨
    (RowLive acc.state row.1 ∧ rowFinishes cfg acc.state row = false ∧
      drainRow ops cfg now isPrefill acc row =
        { acc with
          state := commitPrompt ops isPrefill
            (appendToken cfg acc.state row.1 row.2 false) row.1
          reply := acc.reply ++
            [detokenizeMsg cfg ((acc.state.reqs row.1).appendHost row.2) row.2] }) := by
  cases hc : (acc.state.reqs row.1).isChunked with
  | true =>
    cases ha : (acc.state.reqs row.1).aborted with
    | true => exact Or.inr (Or.inl ⟨rfl, rfl, by simp [drainRow, hc, ha]⟩)
    | false => exact Or.inl ⟨⟨ha, Or.inl hc⟩, by simp [drainRow, hc, ha]⟩
  | false =>
    cases ha : (acc.state.reqs row.1).aborted with
    | true => exact Or.inr (Or.inr (Or.inl ⟨rfl, rfl, by simp [drainRow, hc, ha]⟩))
    | false =>
      by_cases hf : row.1 ∈ acc.state.finishedReqs
      · exact Or.inl ⟨⟨ha, Or.inr hf⟩, by simp [drainRow, hc, ha, hf]⟩
      · cases hfin : rowFinishes cfg acc.state row with
        | true =>
          have hfin' := hfin
          unfold rowFinishes at hfin'
          exact Or.inr (Or.inr (Or.inr (Or.inl
            ⟨⟨hc, ha, hf⟩, rfl, by simp [drainRow, hc, ha, hf, hfin']⟩)))
        | false =>
          have hfin' := hfin
          unfold rowFinishes at hfin'
          exact Or.inr (Or.inr (Or.inr (Or.inr
            ⟨⟨hc, ha, hf⟩, rfl, by simp [drainRow, hc, ha, hf, hfin']⟩)))

-- ---------------------------------------------------------------------------
-- What a row leaves alone
-- ---------------------------------------------------------------------------

/-- `s'` differs from `s` in the object `rid`, in its place in the running set
and in the lease its turn ended on. -/
structure RowFrame (rid : ReqId) (s s' : State C H ρ) : Prop where
  other    : ∀ r, r ≠ rid → s'.reqs r = s.reqs r
  running  : ∀ r, r ≠ rid → (r ∈ s'.runningReqs ↔ r ∈ s.runningReqs)
  pending  : s'.pendingList = s.pendingList
  nextReq  : s'.nextReq = s.nextReq
  finished : s'.finishedReqs = s.finishedReqs
  lastData : s'.lastData = s.lastData
  phase    : s'.phase = s.phase
  outbox   : s'.outbox = s.outbox
  admitted : s'.admitted = s.admitted
  uid      : (s'.reqs rid).uid = (s.reqs rid).uid
  length   : (s'.reqs rid).deviceLen = (s.reqs rid).deviceLen
  leases   : Retained s.sessions s'.sessions (s.reqs rid).uid
  freed    : (s.reqs rid).tableIdx = none → (s'.reqs rid).tableIdx = none

namespace RowFrame

theorem refl (rid : ReqId) (s : State C H ρ) : RowFrame rid s s :=
  ⟨fun _ _ => rfl, fun _ _ => Iff.rfl, rfl, rfl, rfl, rfl, rfl, rfl, rfl, rfl, rfl,
    Retained.refl _ _, id⟩

theorem trans {rid : ReqId} {a b c : State C H ρ} (h₁ : RowFrame rid a b)
    (h₂ : RowFrame rid b c) : RowFrame rid a c where
  other r hr := (h₂.other r hr).trans (h₁.other r hr)
  running r hr := (h₂.running r hr).trans (h₁.running r hr)
  pending := h₂.pending.trans h₁.pending
  nextReq := h₂.nextReq.trans h₁.nextReq
  finished := h₂.finished.trans h₁.finished
  lastData := h₂.lastData.trans h₁.lastData
  phase := h₂.phase.trans h₁.phase
  outbox := h₂.outbox.trans h₁.outbox
  admitted := h₂.admitted.trans h₁.admitted
  uid := h₂.uid.trans h₁.uid
  length := h₂.length.trans h₁.length
  leases := h₁.leases.trans (h₁.uid ▸ h₂.leases)
  freed h := h₂.freed (h₁.freed h)

end RowFrame

/-- Updating the object `rid` and its place in the running set is a row's effect. -/
theorem rowFrame_update {rid : ReqId} {s : State C H ρ} (cache : C) {run : List ReqId}
    {r : Req ρ} (hrun : ∀ r', r' ≠ rid → (r' ∈ run ↔ r' ∈ s.runningReqs))
    (huid : r.uid = (s.reqs rid).uid) (hlen : r.deviceLen = (s.reqs rid).deviceLen)
    (htab : (s.reqs rid).tableIdx = none → r.tableIdx = none) :
    RowFrame rid s { s with
      cache := cache
      runningReqs := run
      reqs := Function.update s.reqs rid r } where
  other r' hr' := Function.update_of_ne hr' ..
  running := hrun
  pending := rfl
  nextReq := rfl
  finished := rfl
  lastData := rfl
  phase := rfl
  outbox := rfl
  admitted := rfl
  uid := by
    dsimp only
    rw [Function.update_self, huid]
  length := by
    dsimp only
    rw [Function.update_self, hlen]
  leases := Retained.refl _ _
  freed h := by
    dsimp only
    rw [Function.update_self]
    exact htab h

theorem removeRunning_frame (s : State C H ρ) (rid : ReqId) :
    RowFrame rid s (removeRunning s rid) :=
  ⟨fun _ _ => rfl, fun _ hr => List.mem_erase_of_ne hr, rfl, rfl, rfl, rfl, rfl, rfl, rfl, rfl,
    rfl, Retained.refl _ _, id⟩

theorem freeReqResources_frame (now : Time) (s : State C H ρ) (rid : ReqId) (retain : Bool) :
    RowFrame rid s (freeReqResources ops cfg now s rid retain) := by
  cases ht : (s.reqs rid).tableIdx with
  | none =>
    rw [freeReqResources_freed ops cfg now retain ht]
    exact RowFrame.refl rid s
  | some slot =>
    obtain ⟨cache, sessions, aliases, res, heq, hret, -, -⟩ :=
      freeReqResources_cases ops cfg now retain ht
    rw [heq]
    refine ⟨fun r hr => Function.update_of_ne hr .., fun _ _ => Iff.rfl, rfl, rfl, rfl, rfl,
      rfl, rfl, rfl, ?_, ?_, hret, fun _ => ?_⟩
    · dsimp only
      rw [Function.update_self]
    · dsimp only
      rw [Function.update_self]
    · dsimp only
      rw [Function.update_self]

/-- Freed resources stay freed, whatever the request did before. -/
theorem freeReqResources_tableIdx (now : Time) (s : State C H ρ) (rid : ReqId)
    (retain : Bool) :
    ((freeReqResources ops cfg now s rid retain).reqs rid).tableIdx = none := by
  cases ht : (s.reqs rid).tableIdx with
  | none => rw [freeReqResources_freed ops cfg now retain ht, ht]
  | some slot =>
    obtain ⟨cache, sessions, aliases, res, heq, -⟩ :=
      freeReqResources_cases ops cfg now retain ht
    rw [heq]
    dsimp only
    rw [Function.update_self]

/-- The token appended to a row's object, as an equation on the object. -/
theorem appendToken_self (s : State C H ρ) (rid : ReqId) (tok : Token) (fin : Bool) :
    ∃ anchor, (appendToken cfg s rid tok fin).reqs rid =
      { (s.reqs rid).appendHost tok with toolcallAnchorLen := anchor } := by
  have hself : (appendToken cfg s rid tok fin).reqs rid = _ := Function.update_self ..
  rw [hself]
  split
  · exact ⟨_, rfl⟩
  · exact ⟨(s.reqs rid).toolcallAnchorLen, rfl⟩

theorem appendToken_frame (s : State C H ρ) (rid : ReqId) (tok : Token) (fin : Bool) :
    RowFrame rid s (appendToken cfg s rid tok fin) := by
  refine rowFrame_update s.cache (fun _ _ => Iff.rfl) ?_ ?_ ?_
  · split <;> rfl
  · split <;> rfl
  · intro h
    split <;> exact h

theorem commitPrompt_self (isPrefill : Bool) (s : State C H ρ) (rid : ReqId) :
    ∃ res, (commitPrompt ops isPrefill s rid).reqs rid = { s.reqs rid with res := res } := by
  unfold commitPrompt
  split
  · exact ⟨_, Function.update_self ..⟩
  · exact ⟨(s.reqs rid).res, rfl⟩

theorem commitPrompt_frame (isPrefill : Bool) (s : State C H ρ) (rid : ReqId) :
    RowFrame rid s (commitPrompt ops isPrefill s rid) := by
  unfold commitPrompt
  split
  · exact rowFrame_update _ (fun _ _ => Iff.rfl) rfl rfl id
  · exact RowFrame.refl rid s

theorem drainRow_frame (now : Time) (isPrefill : Bool) (acc : DrainAcc C H ρ)
    (row : ReqId × Token) :
    RowFrame row.1 acc.state (drainRow ops cfg now isPrefill acc row).state := by
  rcases drainRow_cases ops cfg now isPrefill acc row with
    ⟨-, h⟩ | ⟨-, -, h⟩ | ⟨-, -, h⟩ | ⟨-, -, h⟩ | ⟨-, -, h⟩
  · rw [h]
    exact RowFrame.refl _ _
  · rw [h]
    exact freeReqResources_frame ops cfg now _ _ _
  · rw [h]
    exact (removeRunning_frame _ _).trans (freeReqResources_frame ops cfg now _ _ _)
  · rw [h]
    exact ((appendToken_frame cfg _ _ _ _).trans (removeRunning_frame _ _)).trans
      (freeReqResources_frame ops cfg now _ _ _)
  · rw [h]
    exact (appendToken_frame cfg _ _ _ _).trans (commitPrompt_frame ops _ _ _)

theorem canDecode_of_static {r r' : Req ρ} (hst : r'.static = r.static)
    (hlen : r'.deviceLen = r.deviceLen) : r'.canDecode = r.canDecode := by
  have hmax : r'.maxDeviceLen = r.maxDeviceLen := congrArg Static.maxDeviceLen hst
  unfold Req.canDecode Req.remainLen
  rw [Req.isChunked_of_static hst, hmax, hlen]

/-- A drain changes nobody's output budget. -/
theorem drainRow_canDecode (now : Time) (isPrefill : Bool) (acc : DrainAcc C H ρ)
    (row : ReqId × Token) (r : ReqId) :
    ((drainRow ops cfg now isPrefill acc row).state.reqs r).canDecode =
      (acc.state.reqs r).canDecode := by
  have hf := drainRow_frame ops cfg now isPrefill acc row
  by_cases hr : r = row.1
  · subst hr
    exact canDecode_of_static ((drainRow_ext ops cfg now isPrefill acc row).static _) hf.length
  · rw [hf.other r hr]

-- ---------------------------------------------------------------------------
-- What a row does to its own request
-- ---------------------------------------------------------------------------

/-- What a row that goes on does to its own object. -/
theorem keep_self (isPrefill : Bool) (s : State C H ρ) (rid : ReqId) (tok : Token) :
    ∃ anchor res, (commitPrompt ops isPrefill (appendToken cfg s rid tok false) rid).reqs rid =
      { (s.reqs rid).appendHost tok with toolcallAnchorLen := anchor, res := res } := by
  obtain ⟨anchor, happ⟩ := appendToken_self cfg s rid tok false
  obtain ⟨res, hres⟩ := commitPrompt_self ops isPrefill (appendToken cfg s rid tok false) rid
  exact ⟨anchor, res, by rw [hres, happ]⟩

theorem keep_running (isPrefill : Bool) (s : State C H ρ) (rid : ReqId) (tok : Token) :
    (commitPrompt ops isPrefill (appendToken cfg s rid tok false) rid).runningReqs =
      s.runningReqs := by
  unfold commitPrompt
  split <;> rfl

/-- A row that does not finish still has output budget. -/
theorem canDecode_of_not_finishes {s : State C H ρ} {row : ReqId × Token}
    (h : rowFinishes cfg s row = false) : (s.reqs row.1).canDecode = true := by
  unfold rowFinishes detokenizeMsg at h
  simp only [Bool.or_eq_false_iff, Bool.not_eq_false'] at h
  exact h.1

/-- A row keeps the request of a queued prompt's chunk as it is: the chunk is
not aborted, so there is nothing to drain. -/
theorem drainRow_chunk (now : Time) (isPrefill : Bool) {acc : DrainAcc C H ρ}
    {row : ReqId × Token} (hc : (acc.state.reqs row.1).isChunked = true)
    (ha : (acc.state.reqs row.1).aborted = false) :
    drainRow ops cfg now isPrefill acc row = acc := by
  rcases drainRow_cases ops cfg now isPrefill acc row with
    ⟨-, h⟩ | ⟨ha', -, -⟩ | ⟨ha', -, -⟩ | ⟨hl, -, -⟩ | ⟨hl, -, -⟩
  · exact h
  · rw [ha] at ha'
    cases ha'
  · rw [ha] at ha'
    cases ha'
  · rw [hl.whole] at hc
    cases hc
  · rw [hl.whole] at hc
    cases hc

/-- Who a row adds to the finished set has handed its resources back. -/
theorem drainRow_newFinished (now : Time) (isPrefill : Bool) {acc : DrainAcc C H ρ}
    {row : ReqId × Token} {r : ReqId}
    (hr : r ∈ (drainRow ops cfg now isPrefill acc row).newFinished) :
    r ∈ acc.newFinished ∨ r = row.1 ∧
      ((drainRow ops cfg now isPrefill acc row).state.reqs row.1).tableIdx = none := by
  rcases drainRow_cases ops cfg now isPrefill acc row with
    ⟨-, h⟩ | ⟨-, -, h⟩ | ⟨-, -, h⟩ | ⟨-, -, h⟩ | ⟨-, -, h⟩
  · rw [h] at hr
    exact Or.inl hr
  · rw [h] at hr
    exact Or.inl hr
  · rw [h] at hr ⊢
    rcases List.mem_insert_iff.mp hr with rfl | hr
    · exact Or.inr ⟨rfl, freeReqResources_tableIdx ops cfg now _ _ _⟩
    · exact Or.inl hr
  · rw [h] at hr ⊢
    rcases List.mem_insert_iff.mp hr with rfl | hr
    · exact Or.inr ⟨rfl, freeReqResources_tableIdx ops cfg now _ _ _⟩
    · exact Or.inl hr
  · rw [h] at hr
    exact Or.inl hr

-- ---------------------------------------------------------------------------
-- The rows of a batch
-- ---------------------------------------------------------------------------

/-- Induction over the rows of a drained batch. -/
theorem drainRows_induction (now : Time) (isPrefill : Bool)
    {P : DrainAcc C H ρ → List (ReqId × Token) → Prop}
    (hstep : ∀ acc row rows, P acc (row :: rows) →
      P (drainRow ops cfg now isPrefill acc row) rows) :
    ∀ (rows : List (ReqId × Token)) (acc : DrainAcc C H ρ), P acc rows →
      P (rows.foldl (drainRow ops cfg now isPrefill) acc) [] := by
  intro rows
  induction rows with
  | nil => exact fun acc h => h
  | cons row rows ih => exact fun acc h => ih _ (hstep acc row rows h)

end FreeToken.Scheduler
