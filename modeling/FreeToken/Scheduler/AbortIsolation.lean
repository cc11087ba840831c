import FreeToken.Scheduler.Objects

/-!
# Abort isolation

An abort names a uid and, through the client's session id or the alias of a
rebound request, a session. `Isolated u` is what handling it should leave alone:
every queued, running or launched request of another uid, every other pending
acknowledgement, and every lease whose turn is not `u`.

`abort_isolated_iff` says exactly when the handler does: the lease it closes,
if there is one, must be busy with the aborted request. A late abort, or the
abort of a prompt that was refused, closes a lease that is idle or belongs to
another turn, and then drops that turn too (`late_abort_kills_other_turn`).
-/

namespace FreeToken.Scheduler

variable {C H ρ E : Type} (ops : CacheOps C H ρ E) (cfg : Config)

/-- Nothing of a request with a uid other than `u` differs between `s` and `s'`,
and no lease whose turn is not `u`. -/
structure Isolated (u : Uid) (s s' : State C H ρ) : Prop where
  pending : s'.pendingList.filter (fun p => p.uid != u) =
              s.pendingList.filter (fun p => p.uid != u)
  running : ∀ r, (s.reqs r).uid ≠ u → (r ∈ s'.runningReqs ↔ r ∈ s.runningReqs)
  request : ∀ r, (s.reqs r).uid ≠ u → s'.reqs r = s.reqs r
  acks    : ∀ v, v ≠ u → (v ∈ s'.pendingAbortAcks ↔ v ∈ s.pendingAbortAcks)
  leases  : ∀ sid l, s.sessions sid = some l → l.activeUid ≠ some u →
              ∃ l', s'.sessions sid = some l' ∧ l'.handle = l.handle ∧
                l'.activeUid = l.activeUid

namespace Isolated

theorem refl (u : Uid) (s : State C H ρ) : Isolated u s s :=
  ⟨rfl, fun _ _ => Iff.rfl, fun _ _ => rfl, fun _ _ => Iff.rfl,
    fun _ l h _ => ⟨l, h, rfl, rfl⟩⟩

/-- The uids of the objects must be the same in between, so that "a request of
another uid" means the same objects on both legs. -/
theorem trans {u : Uid} {a b c : State C H ρ} (h₁ : Isolated u a b) (h₂ : Isolated u b c)
    (huid : ∀ r, (b.reqs r).uid = (a.reqs r).uid) : Isolated u a c where
  pending := h₂.pending.trans h₁.pending
  running r hr := (h₂.running r (huid r ▸ hr)).trans (h₁.running r hr)
  request r hr := (h₂.request r (huid r ▸ hr)).trans (h₁.request r hr)
  acks v hv := (h₂.acks v hv).trans (h₁.acks v hv)
  leases sid l hl hu := by
    obtain ⟨l₁, hl₁, hh₁, hu₁⟩ := h₁.leases sid l hl hu
    obtain ⟨l₂, hl₂, hh₂, hu₂⟩ := h₂.leases sid l₁ hl₁ (hu₁ ▸ hu)
    exact ⟨l₂, hl₂, hh₂.trans hh₁, hu₂.trans hu₁⟩

end Isolated

-- ---------------------------------------------------------------------------
-- One handler at a time
-- ---------------------------------------------------------------------------

private theorem filter_eraseP_uid (ps : List PendingReq) (u : Uid) :
    (ps.eraseP fun p => p.uid == u).filter (fun p => p.uid != u) =
      ps.filter fun p => p.uid != u := by
  induction ps with
  | nil => rfl
  | cons p ps ih =>
    by_cases hp : p.uid = u
    · simp [hp]
    · have hne : (p.uid == u) = false := by simpa using hp
      simp [hne, List.filter_cons, ih]

/-- The queue's chunk pointers name chunks of the queued prompt itself, so the
object a manager answers for `u` is one of `u`. -/
theorem abortReq_uid {s : State C H ρ} (hwf : Wf s) {u : Uid} {r : ReqId}
    (hr : (abortReq s u).1 = some r) : (s.reqs r).uid = u := by
  obtain ⟨_, _, -, -, -, hfound⟩ := abortReq_cases s u
  rcases hfound r hr with ⟨l₁, p, l₂, hl, -, hpu, hpr⟩ | ⟨-, hru⟩
  · have hp : p ∈ s.pendingList := by
      rw [hl]
      exact List.mem_append_right _ (List.mem_cons_self ..)
    exact (hwf.chunk p hp r hpr).uid.trans hpu
  · exact hru

theorem abortReq_isolated {s : State C H ρ} (hwf : Wf s) (u : Uid) :
    Isolated u s (abortReq s u).2 := by
  obtain ⟨pending, running, heq, hpend, hrun, -⟩ := abortReq_cases s u
  rw [heq]
  refine ⟨?_, ?_, fun _ _ => rfl, fun _ _ => Iff.rfl, fun _ l h _ => ⟨l, h, rfl, rfl⟩⟩
  · rcases hpend with rfl | rfl
    · rfl
    · exact filter_eraseP_uid s.pendingList u
  · intro r hr
    rcases hrun with rfl | ⟨r', hr', rfl⟩
    · exact Iff.rfl
    · have hne : r ≠ r' := fun h => hr (h ▸ abortReq_uid hwf hr')
      exact List.mem_erase_of_ne hne

/-- Updating one object of uid `u` leaves the others alone. -/
theorem isolated_setReq {u : Uid} {s s' : State C H ρ} {r : ReqId} {req : Req ρ}
    (hr : (s.reqs r).uid = u) (hreqs : s'.reqs = Function.update s.reqs r req)
    (hpend : s'.pendingList = s.pendingList) (hrun : s'.runningReqs = s.runningReqs)
    (hacks : s'.pendingAbortAcks = s.pendingAbortAcks) (hsess : s'.sessions = s.sessions) :
    Isolated u s s' where
  pending := by rw [hpend]
  running _ _ := by rw [hrun]
  request r' hr' := by
    have hne : r' ≠ r := fun h => hr' (h ▸ hr)
    rw [hreqs, Function.update_of_ne hne]
  acks _ _ := by rw [hacks]
  leases sid l hl _ := ⟨l, by rw [hsess, hl], rfl, rfl⟩

theorem dropReq_isolated (now : Time) {s : State C H ρ} {u : Uid} {found : Option ReqId}
    (hfound : ∀ r, found = some r → (s.reqs r).uid = u) :
    Isolated u s (dropReq ops cfg now s found) := by
  rcases dropReq_cases ops cfg now s found with ⟨-, h⟩ | ⟨r, hr, h⟩ | ⟨r, slot, c, al, res, hr, -, h⟩
  · rw [h]
    exact Isolated.refl u s
  · rw [h]
    exact isolated_setReq (hfound r hr) rfl rfl rfl rfl rfl
  · rw [h]
    exact isolated_setReq (hfound r hr) rfl rfl rfl rfl rfl

theorem abortUid_isolated (now : Time) {s : State C H ρ} (hwf : Wf s) (u : Uid) :
    Isolated u s (abortUid ops cfg now s u) := by
  have hext := abortReq_ext s u
  refine (abortReq_isolated hwf u).trans (dropReq_isolated ops cfg now ?_) hext.uid
  intro r hr
  rw [hext.uid r]
  exact abortReq_uid hwf hr

theorem ackAbort_isolated (s : State C H ρ) (u : Uid) : Isolated u s (ackAbort s u) where
  pending := rfl
  running _ _ := Iff.rfl
  request _ _ := rfl
  acks v hv := by
    show v ∈ s.pendingAbortAcks.insert u ↔ v ∈ s.pendingAbortAcks
    rw [List.mem_insert_iff]
    exact ⟨fun h => h.resolve_left hv, Or.inr⟩
  leases _ l h _ := ⟨l, h, rfl, rfl⟩

/-- Closing the session `u` is running in touches no other turn. -/
theorem closeSession_isolated (now : Time) {s : State C H ρ} (hwf : Wf s) {u : Uid}
    {sid : SessionId} (hown : ∀ l, s.sessions sid = some l → l.activeUid = some u) :
    Isolated u s (closeSession ops cfg now s sid) := by
  cases hl : s.sessions sid with
  | none =>
    have : closeSession ops cfg now s sid = s := by simp only [closeSession, hl]
    rw [this]
    exact Isolated.refl u s
  | some l =>
    have hu := hown l hl
    have hdef : closeSession ops cfg now s sid =
        ackAbort (abortUid ops cfg now (popLease ops s sid l) u) u := by
      simp only [closeSession, hl, hu]
    have hpop : Isolated u s (popLease ops s sid l) := by
      refine ⟨rfl, fun _ _ => Iff.rfl, fun _ _ => rfl, fun _ _ => Iff.rfl, ?_⟩
      intro sid' l' hl' hne
      have hsid : sid' ≠ sid := by
        rintro rfl
        rw [hl, Option.some.injEq] at hl'
        exact hne (hl' ▸ hu)
      refine ⟨l', ?_, rfl, rfl⟩
      show Function.update s.sessions sid none sid' = some l'
      rw [Function.update_of_ne hsid, hl']
    have hwf' : Wf (popLease ops s sid l) := hwf.ext (popLease_ext ops s sid l)
    rw [hdef]
    exact (hpop.trans (abortUid_isolated ops cfg now hwf' u) fun _ => rfl).trans
      (ackAbort_isolated _ u) (((popLease_ext ops s sid l).trans
        (abortUid_ext ops cfg now _ u)).uid)

-- ---------------------------------------------------------------------------
-- The abort handler
-- ---------------------------------------------------------------------------

/-- The abort closes nothing, a lease that does not exist, or its own turn's lease. -/
def OwnsAbortedSession (s : State C H ρ) (u : Uid) (sid : Option SessionId) : Prop :=
  ∀ target l, abortedSession s u sid = some target → s.sessions target = some l →
    l.activeUid = some u

theorem processAbort_isolated (now : Time) {s : State C H ρ} (hwf : Wf s) {u : Uid}
    {sid : Option SessionId} (hown : OwnsAbortedSession s u sid) :
    Isolated u s (processAbort ops cfg now s u sid) := by
  have hnote : Isolated u s (noteAbort s u) :=
    ⟨rfl, fun _ _ => Iff.rfl, fun _ _ => rfl, fun _ _ => Iff.rfl,
    fun _ l h _ => ⟨l, h, rfl, rfl⟩⟩
  have hwf₁ : Wf (noteAbort s u) := hwf.ext (noteAbort_ext s u)
  have hclose : Isolated u (noteAbort s u)
      (closeSession? ops cfg now (noteAbort s u) (abortedSession s u sid)) := by
    cases htarget : abortedSession s u sid with
    | none => exact Isolated.refl u _
    | some target =>
      exact closeSession_isolated ops cfg now hwf₁ fun l hl => hown target l htarget hl
  have hext₂ := (noteAbort_ext s u).trans
    (closeSession?_ext ops cfg now (noteAbort s u) (abortedSession s u sid))
  exact ((hnote.trans hclose fun _ => rfl).trans
      (abortUid_isolated ops cfg now (hwf.ext hext₂) u) hext₂.uid).trans
    (ackAbort_isolated _ u) (hext₂.trans (abortUid_ext ops cfg now _ u)).uid

theorem abortUid_sessions (now : Time) (s : State C H ρ) (u : Uid) :
    (abortUid ops cfg now s u).sessions = s.sessions := by
  obtain ⟨pending, running, heq, -⟩ := abortReq_cases s u
  rw [abortUid, heq]
  rcases dropReq_cases ops cfg now { s with pendingList := pending, runningReqs := running }
    (abortReq s u).1 with ⟨-, h⟩ | ⟨r, -, h⟩ | ⟨r, slot, c, al, res, -, -, h⟩
  all_goals rw [h]
  rfl

theorem closeSession_sessions (now : Time) (s : State C H ρ) (sid : SessionId) :
    (closeSession ops cfg now s sid).sessions = Function.update s.sessions sid none := by
  unfold closeSession
  split
  · rename_i hl
    rw [← hl, Function.update_eq_self]
  · split
    · rfl
    · exact abortUid_sessions ops cfg now _ _

/-- The lease the abort names is gone after it, whoever's turn it was. -/
theorem processAbort_sessions (now : Time) (s : State C H ρ) (u : Uid)
    (sid : Option SessionId) {target : SessionId}
    (htarget : abortedSession s u sid = some target) :
    (processAbort ops cfg now s u sid).sessions = Function.update s.sessions target none := by
  unfold processAbort
  rw [htarget]
  show (abortUid ops cfg now (closeSession ops cfg now (noteAbort s u) target) u).sessions = _
  rw [abortUid_sessions, closeSession_sessions]
  rfl

/--
**Abort isolation.** In every state either loop can reach, handling
`AbortBackendMsg(u, sid)` leaves every request and lease of another turn alone
if and only if the lease it closes, should there be one, is busy with `u`.
-/
theorem abort_isolated_iff {overlap : Bool} {cache : C} {dummy : Req ρ} {n : Nat}
    {s : State C H ρ}
    (hs : Lib.Reach (step ops cfg overlap) (fun _ _ => True) (State.init cache dummy n) s)
    (now : Time) (u : Uid) (sid : Option SessionId) :
    Isolated u s (processAbort ops cfg now s u sid) ↔ OwnsAbortedSession s u sid := by
  constructor
  · intro h target l htarget hl
    by_contra hne
    obtain ⟨l', hkept, -⟩ := h.leases target l hl hne
    rw [processAbort_sessions ops cfg now s u sid htarget, Function.update_self] at hkept
    cases hkept
  · exact processAbort_isolated ops cfg now (reach_wf ops cfg hs)

-- ---------------------------------------------------------------------------
-- A refused prompt's abort
-- ---------------------------------------------------------------------------

/-- A text prompt of one token, bound to the session `c`. -/
def turn (uid : Uid) : UserMsg where
  uid := uid
  inputIds := [7]
  samplingParams := ⟨4, false, []⟩
  mmItems := []
  sessionId := some ['c']
  sessionTtl := none
  sessionReclaimable := false
  hiddenStates := none
  prefixBoundary := none

/-- Turn 1 is queued on session `c`; turn 2 names the same session and is
answered "session 'c' is busy". -/
def refusedTurn : State Unit Unit Unit :=
  [turn 1, turn 2].foldl (fun s m => processUser .naive .plain 0 .quiet s m)
    (State.init () .dummy 4)

theorem refusedTurn_reached :
    Lib.Reach (step .naive .plain true) (fun _ _ => True) (State.init () .dummy 4)
      refusedTurn :=
  Lib.reach_of_run [.msg 0 (.user (turn 1)) .quiet, .msg 0 (.user (turn 2)) .quiet] rfl

/-- The abort of the refused turn 2 closes the lease of turn 1 and drops turn 1. -/
theorem late_abort_kills_other_turn :
    Lib.Reach (step .naive .plain true) (fun _ _ => True) (State.init () .dummy 4)
      refusedTurn ∧
    ¬ Isolated 2 refusedTurn (processAbort .naive .plain 0 refusedTurn 2 (some ['c'])) :=
  ⟨refusedTurn_reached, fun h => absurd h.pending (by decide)⟩

/-- The abort of turn 1 itself is isolated in the same state. -/
theorem own_abort_isolated :
    Isolated 1 refusedTurn (processAbort .naive .plain 0 refusedTurn 1 (some ['c'])) :=
  (abort_isolated_iff .naive .plain refusedTurn_reached 0 1 (some ['c'])).mpr (by
    intro target l htarget hl
    cases htarget
    cases hl
    rfl)

end FreeToken.Scheduler
