import FreeToken.Server.Admission

/-!
# The gate over whole runs

Four steps break the gate: a write of `_on_ready` after another state has replaced `loading`, a
write of `serving` by `_resolve_rebuild` or by the rollback of `dispatch_rebuild` after
`_on_failure` has latched `failed`, and an admission between the two writes of `_on_failure`.
Main results:

* `Gate.step`, `Books.step`: what each other step keeps.
* `gate_holds_of_orderly`: in a run without these steps no request is admitted after a
  snapshot was returned or the backend died, and every snapshot has all tokens of the run.
* `rollback_reopens`: with one of them, both fail.
-/

namespace FreeToken.Server.Admission

open FreeToken.Lib

/-! ## What is promised -/

/-- After this no request may be admitted. -/
def Event.closes : Event → Bool
  | .fatal | .returned _ => true
  | .admitted _ | .replied _ => false

def Event.admits : Event → Bool
  | .admitted _ => true
  | _ => false

def Event.promptTokens : Event → Nat
  | .replied r => r.promptTokensDelta
  | _ => 0

def Event.completionTokens : Event → Nat
  | .replied r => r.completionTokensDelta
  | _ => 0

/-- No request is admitted after a death or a returned snapshot, and each returned snapshot has
the tokens of all replies, those that came after it included. -/
structure GateHolds (log : List Event) : Prop where
  closed : log.Pairwise fun a b => ¬ (a.closes = true ∧ b.admits = true)
  totals : ∀ a, .returned a ∈ log →
    a.promptTokens = (log.map Event.promptTokens).sum ∧
      a.completionTokens = (log.map Event.completionTokens).sum
  same : ∀ a b, .returned a ∈ log → .returned b ∈ log →
    a.promptTokens = b.promptTokens ∧ a.completionTokens = b.completionTokens

/-! ## Steps that keep the promise -/

/-- The step does not overwrite what the other thread has just decided. -/
def orderly (s : Frontend) : Step → Bool
  | .newUser => !(s.supervisor = .failing && s.maintenance = .serving)
  | .readyWrite => s.maintenance = .loading
  | .resolveWrite => !(s.supervisor = .ended && s.handler = .resolving false false)
  | .sendFails => !(s.supervisor = .ended)
  | _ => true

/-! ## The gate -/

/-- Rebuilds that have not been settled. -/
def Frontend.outstanding (s : Frontend) : Nat :=
  s.sending + s.sent +
    match s.handler with
    | .resolving _ _ => 1
    | _ => 0

/-- The gate is closed, and nothing is left that could open it. -/
def Frontend.Stopped (s : Frontend) : Prop :=
  s.maintenance ≠ .serving ∧ s.maintenance ≠ .loading ∧
    (s.supervisor = .ended ∨ s.maintenance ≠ .rebuilding ∧ s.outstanding = 0)

structure Gate (s : Frontend) : Prop where
  supervised : s.fatalError = true ↔ s.supervisor = .failing ∨ s.supervisor = .ended
  ended : s.supervisor = .ended → s.maintenance ≠ .serving
  calm : s.supervisor ≠ .ended →
    s.outstanding = 0 ∨ s.outstanding = 1 ∧ s.maintenance = .rebuilding
  checked : ∀ n, s.handler = .checking n → s.supervisor ≠ .ended →
    s.maintenance ∉ Frontend.refusals.take n
  closing : ∀ m c, s.handler = .closing m c → m ≠ .rebuilding → s.supervisor ≠ .ended →
    s.outstanding = 0
  stops : s.stopper ≠ .free ∨ s.sealedAccounting.isSome = true → s.Stopped

theorem Gate.init : Gate {} := by
  constructor <;> simp [Frontend.outstanding]

/-- What the gate does not look at may change, and a stop may end. -/
theorem Gate.frame {s s' : Frontend} (hg : Gate s) (hm : s'.maintenance = s.maintenance)
    (hf : s'.fatalError = s.fatalError) (hsup : s'.supervisor = s.supervisor)
    (hh : s'.handler = s.handler) (ho : s'.outstanding = s.outstanding)
    (hstop : s'.stopper ≠ .free ∨ s'.sealedAccounting.isSome = true →
      s.stopper ≠ .free ∨ s.sealedAccounting.isSome = true) : Gate s' where
  supervised := by rw [hf, hsup]; exact hg.supervised
  ended := by rw [hsup, hm]; exact hg.ended
  calm := by rw [hsup, ho, hm]; exact hg.calm
  checked := by rw [hh, hsup, hm]; exact hg.checked
  closing := by rw [hh, hsup, ho]; exact hg.closing
  stops h := by
    have hs := hg.stops (hstop h)
    unfold Frontend.Stopped at hs ⊢
    rwa [hm, hsup, ho]

/-! ### The handlers of rebuilds -/

/-- A state that passed every read of `cache_rebuild` is `serving`. -/
theorem eq_serving_of_passed {m : Maintenance}
    (h : m ∉ Frontend.refusals.take Frontend.refusals.length) : m = .serving := by
  cases m <;> simp [Frontend.refusals] at h ⊢

theorem Gate.checkRead {s s' : Frontend} {reads : Nat} (hg : Gate s)
    (hh : s.handler = .checking reads) (h : s.checkRead reads = some s') : Gate s' := by
  unfold Frontend.checkRead at h
  split at h
  · rename_i m hm
    have htake : Frontend.refusals.take (reads + 1) = Frontend.refusals.take reads ++ [m] := by
      rw [List.take_add_one, hm]
      rfl
    cases h
    obtain ⟨h1, h2, h3, h4, h5, h6⟩ := hg
    have hpassed := h4 reads hh
    constructor <;> grind [Frontend.outstanding, Frontend.Stopped]
  · cases h

/-- A rebuild is begun from `serving`, when no other is outstanding, unless the gate was latched
during the reads. -/
theorem Gate.dispatchRebuild {s : Frontend} (hg : Gate s)
    (hh : s.handler = .checking Frontend.refusals.length) : Gate s.dispatchRebuild := by
  have hserving : s.supervisor ≠ .ended → s.maintenance = .serving := fun hf =>
    eq_serving_of_passed (hg.checked _ hh hf)
  have hnone : s.supervisor ≠ .ended → s.outstanding = 0 := by
    intro hf
    rcases hg.calm hf with h0 | ⟨-, hm⟩
    · exact h0
    · rw [hserving hf] at hm
      cases hm
  unfold Frontend.dispatchRebuild
  obtain ⟨h1, h2, h3, h4, h5, h6⟩ := hg
  constructor <;> grind [Frontend.outstanding, Frontend.Stopped]

/-- The rollback opens the gate to nothing else, as long as no death has latched it. -/
theorem Gate.sendFails {s : Frontend} (hg : Gate s) (hf : s.supervisor ≠ .ended)
    (hh : s.handler = .idle) (hsend : 0 < s.sending) : Gate s.sendFails := by
  -- the one outstanding rebuild is this one, so no stop has begun
  have hone : s.outstanding = 1 := by
    rcases hg.calm hf with h0 | ⟨h1, -⟩
    · unfold Frontend.outstanding at h0
      omega
    · exact h1
  have hfree : ¬ (s.stopper ≠ .free ∨ s.sealedAccounting.isSome = true) := by
    intro hstop
    obtain ⟨-, -, hdead | ⟨-, h0⟩⟩ := hg.stops hstop
    · exact hf hdead
    · omega
  unfold Frontend.sendFails
  obtain ⟨h1, h2, h3, h4, h5, h6⟩ := hg
  constructor <;> grind [Frontend.outstanding, Frontend.Stopped]

theorem Gate.rebuildReply {s : Frontend} (hg : Gate s) (failed : Bool) (hh : s.handler = .idle)
    (hsent : 0 < s.sent) : Gate (s.rebuildReply failed) := by
  unfold Frontend.rebuildReply
  obtain ⟨h1, h2, h3, h4, h5, h6⟩ := hg
  constructor <;> grind [Frontend.outstanding, Frontend.Stopped]

/-- The answer opens the gate when no death has latched it, and no stop has begun then. -/
theorem Gate.resolveWrite {s : Frontend} (hg : Gate s) {failed fatalSeen : Bool}
    (hh : s.handler = .resolving failed fatalSeen)
    (hok : s.supervisor = .ended → s.handler ≠ .resolving false false) :
    Gate (s.resolveWrite failed fatalSeen) := by
  have hfree : s.supervisor ≠ .ended →
      ¬ (s.stopper ≠ .free ∨ s.sealedAccounting.isSome = true) := by
    intro hf hstop
    obtain ⟨-, -, hdead | ⟨-, h0⟩⟩ := hg.stops hstop
    · exact hf hdead
    · simp [Frontend.outstanding, hh] at h0
  unfold Frontend.resolveWrite
  obtain ⟨h1, h2, h3, h4, h5, h6⟩ := hg
  constructor <;> grind [Frontend.outstanding, Frontend.Stopped]

/-! ### The stop barrier -/

theorem Gate.prepareStop {s : Frontend} (hg : Gate s) (c : Call) (hh : s.handler = .idle) :
    Gate (s.prepareStop c) := by
  unfold Frontend.prepareStop
  obtain ⟨h1, h2, h3, h4, h5, h6⟩ := hg
  constructor <;> grind [Frontend.outstanding, Frontend.Stopped]

/-- A stop begins where no rebuild is outstanding, unless a death has latched the gate. -/
theorem Gate.close {s : Frontend} (hg : Gate s) {seen : Maintenance} {c : Call}
    (hh : s.handler = .closing seen c) : Gate (s.close seen c) := by
  have hnone := hg.closing seen c hh
  unfold Frontend.close
  obtain ⟨h1, h2, h3, h4, h5, h6⟩ := hg
  constructor <;> grind [Frontend.outstanding, Frontend.Stopped]

theorem Gate.sealWith {s : Frontend} (hg : Gate s) (a : Snapshot) (hstop : s.stopper ≠ .free) :
    Gate (s.sealWith a) :=
  hg.frame rfl rfl rfl rfl rfl fun _ => Or.inl hstop

theorem Gate.drained {s : Frontend} (hg : Gate s) (c : Call) (hstop : s.stopper ≠ .free) :
    Gate (s.drained c) := by
  unfold Frontend.drained
  split
  · exact hg.frame rfl rfl rfl rfl rfl fun _ => Or.inl hstop
  · exact hg.sealWith _ hstop

/-! ### The supervisor -/

/-- `_on_ready` opens a gate that still says `loading`: no rebuild was ever begun, nor a stop. -/
theorem Gate.readyWrite {s : Frontend} (hg : Gate s) (hready : s.supervisor = .readySeen)
    (hm : s.maintenance = .loading) :
    Gate { s with supervisor := .watching, maintenance := .serving } := by
  have hfree : ¬ (s.stopper ≠ .free ∨ s.sealedAccounting.isSome = true) := fun hstop =>
    (hg.stops hstop).2.1 hm
  have hfirst : ∀ n, s.handler = .checking n → s.supervisor ≠ .ended → n = 0 := by
    intro n hn hf
    have hnot := hg.checked n hn hf
    rw [hm] at hnot
    cases n with
    | zero => rfl
    | succ n => simp [Frontend.refusals] at hnot
  obtain ⟨h1, h2, h3, h4, h5, h6⟩ := hg
  constructor <;> grind [Frontend.outstanding, Frontend.Stopped]

theorem Gate.failureBegins {s : Frontend} (hg : Gate s) (halive : s.supervisor ≠ .ended) :
    Gate { s with supervisor := .failing, fatalError := true, log := s.log ++ [.fatal] } := by
  obtain ⟨h1, h2, h3, h4, h5, h6⟩ := hg
  constructor <;> grind [Frontend.outstanding, Frontend.Stopped]

theorem Gate.failureWrite {s : Frontend} (hg : Gate s) (hs : s.supervisor = .failing) :
    Gate { s with supervisor := .ended, maintenance := .failed } := by
  obtain ⟨h1, h2, h3, h4, h5, h6⟩ := hg
  constructor <;> grind [Frontend.outstanding, Frontend.Stopped]

/-! ### All steps -/

theorem Gate.newUser {s : Frontend} (hg : Gate s) : Gate s.newUser := by
  unfold Frontend.newUser
  split
  · exact hg
  · exact hg.frame rfl rfl rfl rfl rfl id

theorem Gate.reply {s s' : Frontend} (hg : Gate s) {r : Reply} (h : s.reply r = some s') :
    Gate s' := by
  unfold Frontend.reply at h
  split at h
  · cases h
    exact hg.frame rfl rfl rfl rfl rfl id
  · cases h

/-- Every orderly step keeps the gate. -/
theorem Gate.step {s s' : Frontend} {a : Step} (hg : Gate s) (hok : orderly s a = true)
    (h : step s a = some s') : Gate s' := by
  cases a with
  | newUser =>
    obtain ⟨-, rfl⟩ := Option.ite_none_right_eq_some.mp h |>.imp_right Option.some.inj
    exact hg.newUser
  | reply r => exact hg.reply (Option.ite_none_right_eq_some.mp h).2
  | abort uid reason =>
    obtain ⟨-, rfl⟩ := Option.ite_none_right_eq_some.mp h |>.imp_right Option.some.inj
    exact hg.frame rfl rfl rfl rfl rfl id
  | rebuildRequest =>
    obtain ⟨hh, rfl⟩ := Option.ite_none_right_eq_some.mp h |>.imp_right Option.some.inj
    obtain ⟨h1, h2, h3, h4, h5, h6⟩ := hg
    constructor <;> grind [Frontend.outstanding, Frontend.Stopped]
  | checkRead =>
    simp only [Admission.step] at h
    split at h
    · exact hg.checkRead ‹_› h
    · cases h
  | rebuildInvalid =>
    obtain ⟨hh, rfl⟩ := Option.ite_none_right_eq_some.mp h |>.imp_right Option.some.inj
    obtain ⟨h1, h2, h3, h4, h5, h6⟩ := hg
    constructor <;> grind [Frontend.outstanding, Frontend.Stopped]
  | dispatchRebuild =>
    obtain ⟨hh, rfl⟩ := Option.ite_none_right_eq_some.mp h |>.imp_right Option.some.inj
    exact hg.dispatchRebuild hh
  | sendDone =>
    -- from `sending` to `sent`, and outstanding in both
    obtain ⟨hsend, rfl⟩ := Option.ite_none_right_eq_some.mp h |>.imp_right Option.some.inj
    refine hg.frame rfl rfl rfl rfl ?_ id
    unfold Frontend.outstanding
    simp only
    omega
  | sendFails =>
    obtain ⟨⟨hh, hsend⟩, rfl⟩ :=
      Option.ite_none_right_eq_some.mp h |>.imp_right Option.some.inj
    exact hg.sendFails (by simpa [orderly] using hok) hh hsend
  | rebuildReply failed =>
    obtain ⟨⟨hh, hsent⟩, rfl⟩ :=
      Option.ite_none_right_eq_some.mp h |>.imp_right Option.some.inj
    exact hg.rebuildReply failed hh hsent
  | resolveWrite =>
    simp only [Admission.step] at h
    split at h
    · cases h
      exact hg.resolveWrite ‹_› fun hf => by simpa [orderly, hf] using hok
    · cases h
  | prepareStop c =>
    obtain ⟨⟨hh, -⟩, rfl⟩ := Option.ite_none_right_eq_some.mp h |>.imp_right Option.some.inj
    exact hg.prepareStop c hh
  | close =>
    simp only [Admission.step] at h
    split at h
    · cases h
      exact hg.close ‹_›
    · cases h
  | drained =>
    -- the stop was waiting for idle, or aborting what was left
    have hmatch := (Option.ite_none_right_eq_some.mp h).2
    split at hmatch
    · cases hmatch
      exact hg.drained _ (by simp [*])
    · cases hmatch
      exact hg.drained _ (by simp [*])
    · cases hmatch
  | drainTimeout =>
    have hmatch := (Option.ite_none_right_eq_some.mp h).2
    split at hmatch
    · cases hmatch
      exact hg.frame rfl rfl rfl rfl rfl fun _ => Or.inl (by simp [*])
    · cases hmatch
  | checkpointed =>
    have hmatch := (Option.ite_none_right_eq_some.mp h).2
    split at hmatch
    · cases hmatch
      exact hg.sealWith _ (by simp [*])
    · cases hmatch
  | giveUp =>
    obtain ⟨-, rfl⟩ := Option.ite_none_right_eq_some.mp h |>.imp_right Option.some.inj
    exact hg.frame rfl rfl rfl rfl rfl fun hstop => Or.inr (by simpa using hstop)
  | readyRead =>
    obtain ⟨hs, rfl⟩ := Option.ite_none_right_eq_some.mp h |>.imp_right Option.some.inj
    obtain ⟨h1, h2, h3, h4, h5, h6⟩ := hg
    constructor <;> grind [Frontend.outstanding, Frontend.Stopped]
  | readyWrite =>
    obtain ⟨hs, rfl⟩ := Option.ite_none_right_eq_some.mp h |>.imp_right Option.some.inj
    exact hg.readyWrite hs (by simpa [orderly] using hok)
  | failureBegins =>
    obtain ⟨hs, rfl⟩ := Option.ite_none_right_eq_some.mp h |>.imp_right Option.some.inj
    exact hg.failureBegins (by rcases hs with hs | hs <;> simp [hs])
  | failureWrite =>
    obtain ⟨hs, rfl⟩ := Option.ite_none_right_eq_some.mp h |>.imp_right Option.some.inj
    exact hg.failureWrite hs

/-! ## The accounts -/

section Stats

@[simp]
theorem Stats.onAbort_totals (t : Stats) (uid : Nat) (reason : Reason) :
    (t.onAbort uid reason).inflight = t.inflight ∧
      (t.onAbort uid reason).promptTokensTotal = t.promptTokensTotal ∧
        (t.onAbort uid reason).completionTokensTotal = t.completionTokensTotal := by
  unfold Stats.onAbort
  cases reason <;> simp only <;> split <;> exact ⟨rfl, rfl, rfl⟩

theorem Stats.observe_totals (t : Stats) (r : Reply) :
    (t.observe r).promptTokensTotal = t.promptTokensTotal + r.promptTokensDelta ∧
      (t.observe r).completionTokensTotal =
        t.completionTokensTotal + r.completionTokensDelta := by
  unfold Stats.observe
  simp only
  split
  · split <;> exact ⟨rfl, rfl⟩
  · exact ⟨rfl, rfl⟩

/-- A request stays active until its finished reply. -/
theorem Stats.observe_inflight (t : Stats) {r : Reply} (h : r.uid ∈ t.inflight) :
    (t.observe r).inflight = if r.finished then t.inflight.erase r.uid else t.inflight := by
  unfold Stats.observe
  simp only [h, and_true]
  split
  · split <;> rfl
  · rfl

end Stats

/-- The snapshot has the totals, and no request is active that could add to them. -/
def Frontend.Final (s : Frontend) (a : Snapshot) : Prop :=
  a.promptTokens = s.stats.promptTokensTotal ∧
    a.completionTokens = s.stats.completionTokensTotal ∧ s.stats.inflight = ∅

structure Books (s : Frontend) : Prop where
  owed : s.stats.inflight = s.owed
  prompt : s.stats.promptTokensTotal = (s.log.map Event.promptTokens).sum
  completion : s.stats.completionTokensTotal = (s.log.map Event.completionTokens).sum
  sealing : ∀ a, s.sealedAccounting = some a → s.Final a
  captured : ∀ c a, s.stopper = .checkpointing c a → s.Final a
  returned : ∀ a, .returned a ∈ s.log → s.Final a ∧ s.sealedAccounting.isSome = true
  dead : .fatal ∈ s.log → s.fatalError = true
  closed : s.log.Pairwise fun a b => ¬ (a.closes = true ∧ b.admits = true)

theorem Books.init : Books {} := by
  constructor <;> simp

/-- What the accounts do not look at may change. -/
theorem Books.frame {s s' : Frontend} (hb : Books s)
    (hstats : s'.stats.inflight = s.stats.inflight ∧
      s'.stats.promptTokensTotal = s.stats.promptTokensTotal ∧
        s'.stats.completionTokensTotal = s.stats.completionTokensTotal)
    (howed : s'.owed = s.owed) (hlog : s'.log = s.log)
    (hsealed : s'.sealedAccounting = s.sealedAccounting)
    (hstop : ∀ c a, s'.stopper = .checkpointing c a → s.Final a)
    (hf : s.fatalError = true → s'.fatalError = true) : Books s' := by
  obtain ⟨hin, hp, hc⟩ := hstats
  have hfinal : ∀ a, s.Final a → s'.Final a := by
    intro a ha
    unfold Frontend.Final
    rwa [hin, hp, hc]
  exact
    { owed := by rw [hin, howed, hb.owed]
      prompt := by rw [hp, hlog, hb.prompt]
      completion := by rw [hc, hlog, hb.completion]
      sealing := fun a ha => hfinal a (hb.sealing a (hsealed ▸ ha))
      captured := fun c a ha => hfinal a (hstop c a ha)
      returned := by
        intro a ha
        rw [hlog] at ha
        exact ⟨hfinal a (hb.returned a ha).1, hsealed ▸ (hb.returned a ha).2⟩
      dead := fun h => hf (hb.dead (hlog ▸ h))
      closed := hlog ▸ hb.closed }

/-- A log without a death or a snapshot may go on with anything. -/
theorem closed_append {log : List Event} {e : Event}
    (h : log.Pairwise fun a b => ¬ (a.closes = true ∧ b.admits = true))
    (hnew : e.admits = true → ∀ a ∈ log, a.closes = false) :
    (log ++ [e]).Pairwise fun a b => ¬ (a.closes = true ∧ b.admits = true) := by
  rw [List.pairwise_append]
  refine ⟨h, List.pairwise_singleton _ _, ?_⟩
  intro a ha b hb
  rw [List.mem_singleton.mp hb]
  rintro ⟨hcloses, hadmits⟩
  rw [hnew hadmits a ha] at hcloses
  cases hcloses

/-- An admission: the gate is open, so neither a snapshot nor a death came before. -/
theorem Books.newUser {s : Frontend} (hb : Books s) (hg : Gate s)
    (hok : orderly s .newUser = true) : Books s.newUser := by
  unfold Frontend.newUser
  split
  · exact hb
  rename_i hserving
  rw [not_not] at hserving
  have hopen : ¬ (s.stopper ≠ .free ∨ s.sealedAccounting.isSome = true) := fun hstop =>
    (hg.stops hstop).1 hserving
  rw [not_or, not_not] at hopen
  have halive : s.fatalError = false := by
    cases hf : s.fatalError with
    | false => rfl
    | true =>
      rcases hg.supervised.mp hf with hfailing | hended
      · simp [orderly, hfailing, hserving] at hok
      · exact absurd hserving (hg.ended hended)
  have hunreturned : ∀ a, .returned a ∉ s.log := fun a ha => hopen.2 (hb.returned a ha).2
  have hundead : .fatal ∉ s.log := by
    intro h
    rw [hb.dead h] at halive
    cases halive
  constructor
  · simp [Stats.onNewUser, hb.owed]
  · simp [Stats.onNewUser, Event.promptTokens, hb.prompt]
  · simp [Stats.onNewUser, Event.completionTokens, hb.completion]
  · intro a ha
    have hsome : s.sealedAccounting.isSome = true := Option.isSome_iff_exists.mpr ⟨a, ha⟩
    exact absurd hsome hopen.2
  · intro c a ha
    simp [hopen.1] at ha
  · intro a ha
    simp [hunreturned a] at ha
  · intro h
    simp [hundead] at h
  · refine closed_append hb.closed fun _ a ha => ?_
    cases a with
    | admitted uid => rfl
    | replied r => rfl
    | fatal => exact absurd ha hundead
    | returned a => exact absurd ha (hunreturned a)

/-- A reply: its request is active, so no snapshot was taken yet. -/
theorem Books.reply {s s' : Frontend} (hb : Books s) {r : Reply} (h : s.reply r = some s') :
    Books s' := by
  obtain ⟨hmem, rfl⟩ := Option.ite_none_right_eq_some.mp h |>.imp_right Option.some.inj
  have hactive : r.uid ∈ s.stats.inflight := hb.owed ▸ hmem
  have hnone : ∀ a, ¬ s.Final a := by
    rintro a ⟨-, -, hempty⟩
    rw [hempty] at hactive
    simp at hactive
  obtain ⟨hp, hc⟩ := s.stats.observe_totals r
  constructor
  · simp only [s.stats.observe_inflight hactive, hb.owed]
  · simp [hp, hb.prompt, Event.promptTokens]
  · simp [hc, hb.completion, Event.completionTokens]
  · exact fun a ha => absurd (hb.sealing a ha) (hnone a)
  · exact fun c a ha => absurd (hb.captured c a ha) (hnone a)
  · intro a ha
    exact absurd (hb.returned a (by simpa using ha)).1 (hnone a)
  · intro hf
    exact hb.dead (by simpa using hf)
  · exact closed_append hb.closed fun h => by cases h

/-- A snapshot that is final may be returned. -/
theorem Books.returning {s : Frontend} (hb : Books s) {a : Snapshot} (ha : s.Final a)
    (sealedNow : Option Snapshot) (hsome : sealedNow.isSome = true)
    (hsealed : ∀ b, sealedNow = some b → s.Final b) (stopper : Stopper)
    (hstop : ∀ c b, stopper = .checkpointing c b → s.Final b) :
    Books { s with sealedAccounting := sealedNow, stopper := stopper
                   log := s.log ++ [.returned a] } := by
  constructor
  · exact hb.owed
  · simp [hb.prompt, Event.promptTokens]
  · simp [hb.completion, Event.completionTokens]
  · exact hsealed
  · exact hstop
  · intro b hmem
    refine ⟨?_, hsome⟩
    rcases List.mem_append.mp hmem with hold | hnew
    · exact (hb.returned b hold).1
    · rw [List.mem_singleton, Event.returned.injEq] at hnew
      exact hnew ▸ ha
  · intro hf
    exact hb.dead (by simpa using hf)
  · exact closed_append hb.closed fun h => by cases h

theorem Books.sealWith {s : Frontend} (hb : Books s) {a : Snapshot} (ha : s.Final a) :
    Books (s.sealWith a) :=
  hb.returning ha (some a) rfl (fun b hbeq => by cases hbeq; exact ha) .free
    fun c b h => by cases h

/-- Once no request is active, the totals are final. -/
theorem Books.drained {s : Frontend} (hb : Books s) (c : Call) (hidle : s.stats.active = 0) :
    Books (s.drained c) := by
  have hempty : s.stats.inflight = ∅ := Finset.card_eq_zero.mp hidle
  have hfinal : s.Final s.accounting := by
    unfold Frontend.accounting
    cases hs : s.sealedAccounting with
    | some a => exact hb.sealing a hs
    | none => exact ⟨rfl, rfl, hempty⟩
  unfold Frontend.drained
  split
  · refine hb.frame ⟨rfl, rfl, rfl⟩ rfl rfl rfl ?_ id
    intro c' a h
    cases h
    exact hfinal
  · exact hb.sealWith hfinal

/-- A call that is answered from the sealed snapshot, or goes on. -/
theorem Books.prepareStop {s : Frontend} (hb : Books s) (c : Call) :
    Books (s.prepareStop c) := by
  unfold Frontend.prepareStop
  split
  · rename_i a ha
    have hsealed : s.sealedAccounting = some a := (Option.filter_eq_some_iff.mp ha).1
    exact hb.returning (hb.sealing a hsealed) s.sealedAccounting (by simp [hsealed])
      (fun b hbeq => hb.sealing b hbeq) s.stopper hb.captured
  · split
    · exact hb
    · exact hb.frame ⟨rfl, rfl, rfl⟩ rfl rfl rfl hb.captured id

/-- Every orderly step keeps the accounts. -/
theorem Books.step {s s' : Frontend} {a : Step} (hb : Books s) (hg : Gate s)
    (hok : orderly s a = true) (h : step s a = some s') : Books s' := by
  -- a step that counts nothing and answers nothing
  have hsame : ∀ t : Frontend, t.stats = s.stats → t.owed = s.owed → t.log = s.log →
      t.sealedAccounting = s.sealedAccounting → t.stopper = s.stopper →
        (s.fatalError = true → t.fatalError = true) → Books t := by
    intro t hstats howed hlog hsealed hstop hf
    exact hb.frame (by rw [hstats]; exact ⟨rfl, rfl, rfl⟩) howed hlog hsealed
      (fun c a ha => hb.captured c a (hstop ▸ ha)) hf
  cases a with
  | newUser =>
    obtain ⟨-, rfl⟩ := Option.ite_none_right_eq_some.mp h |>.imp_right Option.some.inj
    exact hb.newUser hg hok
  | reply r => exact hb.reply (Option.ite_none_right_eq_some.mp h).2
  | abort uid reason =>
    -- an abort is counted, but not among the totals
    obtain ⟨-, rfl⟩ := Option.ite_none_right_eq_some.mp h |>.imp_right Option.some.inj
    exact hb.frame (s.stats.onAbort_totals uid reason) rfl rfl rfl hb.captured id
  | checkRead =>
    simp only [Admission.step, Frontend.checkRead] at h
    split at h
    · split at h
      · cases h
        exact hsame _ rfl rfl rfl rfl rfl id
      · cases h
    · cases h
  | resolveWrite =>
    simp only [Admission.step] at h
    split at h
    · cases h
      exact hsame _ rfl rfl rfl rfl rfl id
    · cases h
  | prepareStop c =>
    obtain ⟨-, rfl⟩ := Option.ite_none_right_eq_some.mp h |>.imp_right Option.some.inj
    exact hb.prepareStop c
  | close =>
    simp only [Admission.step] at h
    split at h
    · cases h
      unfold Frontend.close
      split
      · exact hsame _ rfl rfl rfl rfl rfl id
      · exact hb.frame ⟨rfl, rfl, rfl⟩ rfl rfl rfl (fun c a ha => by cases ha) id
    · cases h
  | drained =>
    obtain ⟨⟨-, hidle⟩, hmatch⟩ := Option.ite_none_right_eq_some.mp h
    split at hmatch
    · cases hmatch
      exact hb.drained _ hidle
    · cases hmatch
      exact hb.drained _ hidle
    · cases hmatch
  | drainTimeout =>
    have hmatch := (Option.ite_none_right_eq_some.mp h).2
    split at hmatch
    · cases hmatch
      exact hb.frame ⟨rfl, rfl, rfl⟩ rfl rfl rfl (fun c a ha => by cases ha) id
    · cases hmatch
  | checkpointed =>
    -- what is sealed is what the stop had captured
    have hmatch := (Option.ite_none_right_eq_some.mp h).2
    split at hmatch
    · rename_i c a hstop
      cases hmatch
      exact hb.sealWith (hb.captured c a hstop)
    · cases hmatch
  | giveUp =>
    obtain ⟨-, rfl⟩ := Option.ite_none_right_eq_some.mp h |>.imp_right Option.some.inj
    exact hb.frame ⟨rfl, rfl, rfl⟩ rfl rfl rfl (fun c a ha => by cases ha) id
  | failureBegins =>
    obtain ⟨-, rfl⟩ := Option.ite_none_right_eq_some.mp h |>.imp_right Option.some.inj
    constructor
    · exact hb.owed
    · simp [hb.prompt, Event.promptTokens]
    · simp [hb.completion, Event.completionTokens]
    · exact hb.sealing
    · exact hb.captured
    · intro a ha
      exact hb.returned a (by simpa using ha)
    · exact fun _ => rfl
    · exact closed_append hb.closed fun h => by cases h
  | rebuildRequest | rebuildInvalid | dispatchRebuild | sendDone | sendFails | rebuildReply failed
  | readyRead | readyWrite | failureWrite =>
    obtain ⟨-, rfl⟩ := Option.ite_none_right_eq_some.mp h |>.imp_right Option.some.inj
    exact hsame _ rfl rfl rfl rfl rfl id

/-! ## Runs -/

theorem GateHolds.of_books {s : Frontend} (hb : Books s) : GateHolds s.log where
  closed := hb.closed
  totals a ha := by
    obtain ⟨hp, hc, -⟩ := (hb.returned a ha).1
    exact ⟨hp.trans hb.prompt, hc.trans hb.completion⟩
  same a b ha hb' := by
    obtain ⟨hp, hc, -⟩ := (hb.returned a ha).1
    obtain ⟨hp', hc', -⟩ := (hb.returned b hb').1
    exact ⟨hp.trans hp'.symm, hc.trans hc'.symm⟩

/-- In a run of orderly steps, whatever their order: no request is admitted once a snapshot was
returned or the backend died, and every snapshot has the tokens of all replies. -/
theorem gate_holds_of_orderly {s : Frontend}
    (h : Reach step (fun s a => orderly s a = true) {} s) : GateHolds s.log := by
  have hinv : Gate s ∧ Books s := by
    refine h.invariant (P := fun t => Gate t ∧ Books t) ⟨Gate.init, Books.init⟩ ?_
    rintro t a t' ⟨hg, hb⟩ hok hstep
    exact ⟨hg.step hok hstep, hb.step hg hok hstep⟩
  exact GateHolds.of_books hinv.2

/-- A request, a stop that has to abort it, and a second stop. -/
def stoppedRun : List Step :=
  [.readyRead, .readyWrite, .newUser, .reply ⟨0, 3, 0, false, false⟩,
    .prepareStop ⟨false, none⟩, .close, .drainTimeout, .abort 0 .explicit, .newUser,
    .reply ⟨0, 0, 2, true, true⟩, .drained, .prepareStop ⟨false, none⟩]

theorem stoppedRun_holds :
    ∃ s, guardedRun step (fun s a => orderly s a = true) {} stoppedRun = some s ∧
      s.log.getLast? = some (.returned ⟨3, 2, none⟩) ∧ GateHolds s.log := by
  obtain ⟨s, hs⟩ := Option.isSome_iff_exists.mp
    (show (guardedRun step (fun s a => orderly s a = true) {} stoppedRun).isSome = true by
      decide +kernel)
  refine ⟨s, hs, ?_, gate_holds_of_orderly (reach_of_guardedRun stoppedRun hs)⟩
  have hlast : (guardedRun step (fun s a => orderly s a = true) {} stoppedRun).map
      (fun s => s.log.getLast?) = some (some (.returned ⟨3, 2, none⟩)) := by
    decide +kernel
  rw [hs] at hlast
  exact Option.some.inj hlast

/-- A rebuild whose message cannot be sent because the backend died, and a stop in between. -/
def rollbackRun : List Step :=
  [.readyRead, .readyWrite, .rebuildRequest, .checkRead, .checkRead, .checkRead, .checkRead,
    .dispatchRebuild, .failureBegins, .failureWrite, .prepareStop ⟨false, none⟩, .close, .drained,
    .sendFails, .newUser]

/-- The rollback opens the gate after the death and after the snapshot. -/
theorem rollback_reopens :
    ∃ s, run step {} rollbackRun = some s ∧
      s.log = [.fatal, .returned ⟨0, 0, none⟩, .admitted 0] ∧ ¬ GateHolds s.log := by
  obtain ⟨s, hs⟩ := Option.isSome_iff_exists.mp
    (show (run step {} rollbackRun).isSome = true by decide +kernel)
  have hlog : (run step {} rollbackRun).map Frontend.log =
      some [.fatal, .returned ⟨0, 0, none⟩, .admitted 0] := by
    decide +kernel
  rw [hs] at hlog
  have hlog := Option.some.inj hlog
  refine ⟨s, hs, hlog, ?_⟩
  intro h
  have hclosed := h.closed
  rw [hlog] at hclosed
  simp [Event.closes, Event.admits] at hclosed

end FreeToken.Server.Admission
