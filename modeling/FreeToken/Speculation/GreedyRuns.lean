import FreeToken.Lib.Reach
import FreeToken.Speculation.VerifyStep

/-!
# Speculative decoding over whole turns

Any mix of ordinary and verify passes sends what token-by-token greedy decoding
would, as long as no drain ends the turn too early (`PassOk`).

* `drainRow_serving`, `forward_serving`, `runStep_serving` — what each step keeps.
* `speculation_is_greedy` — every guarded run of either loop.
* `verify_after_stop` — `overlap_loop` verifies a request that its own drain has
  just finished.
-/

namespace FreeToken.Speculation

open FreeToken.Scheduler FreeToken.Lib

variable (cfg : Config) (spec : SpecConfig) (next : List Token → Token)

/-- The token in flight is an EOS or completes a stop string. -/
def flightStops (t : Turn) : Bool :=
  t.lastData.any fun tok => hitStop cfg (t.req.appendHost tok) tok

/-- `run_step` finds nothing to verify. -/
def declines (t : Turn) (scratch : Bool) : Prop :=
  draftFor spec t.req ((t.stateFor spec).sync spec.hash t.req.inputIds) scratch = []

/-- A batch launched behind a token in flight leaves budget, unless that token stops
the turn; and the drain of a growing KV pool does not stop the chosen turn. -/
def LaunchOk (t : Turn) (env : PassEnv) : Prop :=
  (env.scheduled && (t.fresh || t.running)) = true →
    if env.grow then flightStops cfg t = false
    else t.lastData = none ∨ flightStops cfg t = true ∨ 1 < t.req.remainLen

/-- In `overlap_loop`: the drain before a verify step does not stop the turn, unless
`run_step` declines it; and a pass without a verify step launches as `LaunchOk` says. -/
def PassOk (overlap : Bool) (t : Turn) (env : PassEnv) : Prop :=
  overlap = true →
    let peeked := peek spec t env t.lastData.isSome
    if peeked.1 then
      flightStops cfg peeked.2 = false ∨
        ∀ t' ∈ drainInflight cfg peeked.2, declines spec t' env.scratch
    else LaunchOk cfg peeked.2 env

instance decidableDeclines (t : Turn) (scratch : Bool) : Decidable (declines spec t scratch) :=
  inferInstanceAs (Decidable (draftFor spec t.req _ scratch = []))

instance decidableLaunchOk (t : Turn) (env : PassEnv) : Decidable (LaunchOk cfg t env) :=
  inferInstanceAs (Decidable (_ = true → if _ = true then _ = false else _ ∨ _ ∨ _))

instance decidablePassOk (overlap : Bool) (t : Turn) (env : PassEnv) : Decidable (PassOk cfg spec overlap t env) :=
  inferInstanceAs (Decidable (_ = true → if _ = true then _ = false ∨ _ else _))

/-- The turn of a prompt that was just admitted. -/
def Turn.start (msg : UserMsg) (tableIdx cachedLen : Nat) (res : TrackSlots) : Turn where
  req :=
    { uid := msg.uid
      sessionId := msg.sessionId
      samplingParams := msg.samplingParams
      mmItems := msg.mmItems
      isChunked := false
      inputIds := msg.inputIds
      cachedLen := cachedLen
      deviceLen := msg.inputIds.length
      maxDeviceLen := msg.inputIds.length + msg.samplingParams.maxTokens
      outputLen := msg.samplingParams.maxTokens
      tableIdx := some tableIdx
      toolcallAnchorLen := none
      aborted := false
      res := res }
  fresh := true
  running := false
  inFinished := false
  lastData := none
  state := none
  outbox := []

/-- One pass, as a step of the turn. -/
def passStep (overlap : Bool) (t : Turn) (env : PassEnv) : Option Turn :=
  (pass cfg spec next overlap t env).map Prod.snd

-- ---------------------------------------------------------------------------
-- The invariant
-- ---------------------------------------------------------------------------

/-- `k` tokens are delivered, `flight` are launched and not drained. -/
structure Serving (g : Config) (msg : UserMsg) (t : Turn) (flight : List Token) (k : Nat) :
    Prop where
  req       : TurnReq g msg t.req k
  owns      : t.req.tableIdx.isSome = true
  within    : k < turnLength g msg
  delivered : t.outbox = (List.range k).map (messageAt g msg)
  active    : t.inFinished = false
  device    : t.req.deviceLen = t.req.inputIds.length + flight.length
  scripted  : flight = scripted g msg k flight.length
  start     : t.fresh = true → t.running = false ∧ flight = []
  shape     : t.fresh = false →
    t.req.cachedLen + 1 = t.req.deviceLen ∧ t.running = t.req.canDecode
  known     : ∀ st ∈ t.state, st.tokens <+: t.req.inputIds

/-- Everything promised was sent and no pass takes the request up again. -/
structure Ended (g : Config) (msg : UserMsg) (t : Turn) : Prop where
  delivered : t.outbox = expected g msg
  launched  : t.fresh = false
  removed   : t.running = false

/-- The invariant between two passes: a row still in flight after the end is skipped,
and until then `n` launches and drains were made. -/
def TurnInv (g : Config) (msg : UserMsg) (n : Nat) (t : Turn) : Prop :=
  (Ended g msg t ∧ (t.lastData = none ∨ t.inFinished = true)) ∨
    ∃ k, Serving g msg t t.lastData.toList k ∧ n ≤ 2 * k + t.lastData.toList.length

variable {cfg spec next} {msg : UserMsg} {t : Turn} {k n : Nat} {flight : List Token}

theorem turnInv_start {g : Config} (hpos : 0 < msg.samplingParams.maxTokens)
    (tableIdx cachedLen : Nat) (res : TrackSlots) :
    TurnInv g msg 0 (.start msg tableIdx cachedLen res) := by
  refine .inr ⟨0, ⟨⟨rfl, rfl, rfl, rfl, rfl, (List.append_nil _).symm⟩, rfl, turnLength_pos g hpos,
    rfl, rfl, rfl, rfl, fun _ => ⟨rfl, rfl⟩, nofun,
    fun st hst => absurd hst (Option.not_mem_none st)⟩, Nat.zero_le _⟩

theorem Serving.setLastData {g : Config} (h : Serving g msg t flight k) (d : Option Token) :
    Serving g msg { t with lastData := d } flight k :=
  ⟨h.req, h.owns, h.within, h.delivered, h.active, h.device, h.scripted, h.start, h.shape, h.known⟩

theorem Serving.not_fresh {g : Config} {tok : Token} {rest : List Token}
    (h : Serving g msg t (tok :: rest) k) : t.fresh = false := by
  rw [← Bool.not_eq_true]
  intro hf
  cases (h.start hf).2

/-- A turn that is not over and has nothing in flight is in the running set. -/
theorem Serving.running (h : Serving (greedyConfig cfg next msg) msg t [] k)
    (hfresh : t.fresh = false) : t.running = true := by
  have hdevice := h.device
  rw [List.length_nil, Nat.add_zero, turnReq_length h.req] at hdevice
  have hbudget := turnLength_le (greedyConfig cfg next msg) msg
  have hwithin := h.within
  exact (h.shape hfresh).2.trans ((h.req.canDecode _ hdevice).mpr (by omega))

/-- A flight starts with the next scripted token. -/
theorem flight_head {g : Config} {tok : Token} {rest : List Token}
    (h : tok :: rest = scripted g msg k (tok :: rest).length) :
    tok = g.script msg.uid k ∧ rest = scripted g msg (k + 1) rest.length := by
  rw [scripted, List.length_cons, List.range'_succ, List.map_cons] at h
  exact List.cons.inj h

theorem scripted_concat {g : Config} {m : Nat} :
    scripted g msg k m ++ [g.script msg.uid (k + m)] = scripted g msg k (m + 1) := by
  rw [scripted, scripted, List.range'_concat, List.map_append, Nat.one_mul]
  rfl

-- ---------------------------------------------------------------------------
-- Ordinary steps
-- ---------------------------------------------------------------------------

theorem hitStop_eq (hr : TurnReq (greedyConfig cfg next msg) msg t.req k) :
    hitStop cfg (t.req.appendHost ((greedyConfig cfg next msg).script msg.uid k))
        ((greedyConfig cfg next msg).script msg.uid k) =
      stopsAt (greedyConfig cfg next msg) msg k := by
  obtain ⟨heos, hmatched⟩ := hr.hitStop
  show hitStop (greedyConfig cfg next msg) _ _ = _
  rw [hitStop, heos, hmatched]
  rfl

theorem noteAnchor_eq (cfg : Config) (r : Req TrackSlots) (tok : Token) (finished : Bool) (len : Nat) :
    ∃ a, noteAnchor cfg r tok finished len = { r with toolcallAnchorLen := a } := by
  unfold noteAnchor
  split
  · exact ⟨_, rfl⟩
  · exact ⟨r.toolcallAnchorLen, rfl⟩

/-- The drain of `tok` ends the turn: the token stops it, or the budget, as the drain
reads it, is spent. -/
def drainEnds (cfg : Config) (t : Turn) (tok : Token) : Bool :=
  !t.req.canDecode || hitStop cfg (t.req.appendHost tok) tok

/-- A drained row sends the next promised message. -/
theorem drainRow_serving {tok : Token} {rest : List Token}
    (h : Serving (greedyConfig cfg next msg) msg t (tok :: rest) k) (hfresh : t.fresh = false)
    (hearly : rest = [] ∨ t.req.canDecode = true ∨
      hitStop cfg (t.req.appendHost tok) tok = true) :
    ∃ t', drainRow cfg t tok = some t' ∧ t'.lastData = t.lastData ∧
      (drainEnds cfg t tok = true →
        Ended (greedyConfig cfg next msg) msg t' ∧ t'.inFinished = true) ∧
      (drainEnds cfg t tok = false →
        Serving (greedyConfig cfg next msg) msg t' rest (k + 1) ∧ t'.fresh = false) := by
  obtain ⟨htok, hrest⟩ := flight_head h.scripted
  subst htok
  have hlen := turnReq_length h.req
  have hspan := h.req.span
  have hdevice := h.device
  rw [List.length_cons] at hdevice
  have hbudget := turnLength_le (greedyConfig cfg next msg) msg
  have hwithin := h.within
  have hcan := h.req.canDecode _ (m := k + rest.length + 1) (by omega)
  have hstop := hitStop_eq h.req
  -- the message is the scripted one: it finishes with the turn, or as early as it may
  have hmsg : detokenizeMsg cfg (t.req.appendHost ((greedyConfig cfg next msg).script msg.uid k))
      ((greedyConfig cfg next msg).script msg.uid k) =
        messageAt (greedyConfig cfg next msg) msg k := by
    refine detokenizeMsg_eq_messageAt _ h.req h.within (fun hno => ?_) fun hlast => ?_
    · rw [← Bool.not_eq_true, hcan] at hno
      rcases hearly with hnil | hdec | hs
      · rw [hnil] at hno
        exact .inr (Nat.le_of_not_lt hno)
      · exact absurd (hcan.mp hdec) hno
      · exact .inl (hstop.symm.trans hs)
    · rw [← Bool.not_eq_true, hcan]
      omega
  have hfin : (messageAt (greedyConfig cfg next msg) msg k).finished =
      drainEnds cfg t ((greedyConfig cfg next msg).script msg.uid k) := by
    rw [← hmsg]
    rfl
  have hend : (messageAt (greedyConfig cfg next msg) msg k).finished = true ↔
      k + 1 = turnLength (greedyConfig cfg next msg) msg := decide_eq_true_iff
  have happend : appendHost t.req [(greedyConfig cfg next msg).script msg.uid k] =
      some (t.req.appendHost ((greedyConfig cfg next msg).script msg.uid k)) := by
    refine if_pos ?_
    rw [List.length_singleton]
    omega
  unfold drainRow
  rw [if_neg (by rw [h.active]; exact Bool.false_ne_true), happend, Option.map_some]
  dsimp only
  rw [hmsg, ← hfin]
  obtain ⟨a, ha⟩ := noteAnchor_eq cfg
    (t.req.appendHost ((greedyConfig cfg next msg).script msg.uid k))
    ((greedyConfig cfg next msg).script msg.uid k)
    (messageAt (greedyConfig cfg next msg) msg k).finished
    (t.req.appendHost ((greedyConfig cfg next msg).script msg.uid k)).inputIds.length
  rw [ha]
  by_cases hlast : (messageAt (greedyConfig cfg next msg) msg k).finished = true
  · -- the last message of the turn
    rw [if_pos hlast]
    refine ⟨_, rfl, rfl, fun _ => ⟨⟨?_, hfresh, rfl⟩, rfl⟩, fun hno => ?_⟩
    · show t.outbox ++ [_] = _
      rw [h.delivered, expected_eq_of_succ _ (hend.mp hlast)]
    · rw [hlast] at hno
      cases hno
  · rw [if_neg hlast]
    refine ⟨_, rfl, rfl, fun hyes => absurd hyes hlast, fun _ => ⟨?_, hfresh⟩⟩
    have happ := turnReq_appended h.req
    have hgrow : (t.req.inputIds ++ [(greedyConfig cfg next msg).script msg.uid k]).length =
        t.req.inputIds.length + 1 := List.length_append
    exact {
      req := ⟨happ.uid, happ.sampling, happ.whole, happ.outputLen, happ.span, happ.tokens⟩
      owns := h.owns
      within := by
        rw [hend] at hlast
        omega
      delivered := by
        show t.outbox ++ [_] = _
        rw [h.delivered, List.range_succ, List.map_append]
        rfl
      active := h.active
      device := by
        show t.req.deviceLen = List.length (t.req.inputIds ++ [_]) + _
        rw [hgrow, hdevice]
        omega
      scripted := hrest
      start := fun hyes => absurd (hfresh.symm.trans hyes) Bool.false_ne_true
      shape := fun _ => h.shape hfresh
      known := fun st hst => (h.known st hst).trans (List.prefix_append _ _) }

variable (spec) in
theorem forward_serving (h : Serving (greedyConfig cfg next msg) msg t t.lastData.toList k) :
    Serving (greedyConfig cfg next msg) msg (forward cfg spec next t).1
        (t.lastData.toList ++ [(forward cfg spec next t).2]) k ∧
      (forward cfg spec next t).1.lastData = t.lastData ∧
      (forward cfg spec next t).1.fresh = false := by
  have htok : (forward cfg spec next t).2 =
      (greedyConfig cfg next msg).script msg.uid (k + t.lastData.toList.length) := by
    show next (t.req.inputIds ++ t.lastData.toList) = next (chain next msg.inputIds _)
    conv_lhs => rw [h.req.tokens, h.scripted, ← tokensAfter_add, tokensAfter_greedy]
  have hcore : (if (cfg.toolcallAnchorId.isSome && !t.fresh) = true then
      snapshotToolcallAnchor spec t.req else t.req).core = t.req.core := by
    split
    · exact snapshotToolcallAnchor_core t.req
    · rfl
  rw [htok]
  refine ⟨?_, rfl, rfl⟩
  unfold forward
  dsimp only
  generalize (if (cfg.toolcallAnchorId.isSome && !t.fresh) = true then
    snapshotToolcallAnchor spec t.req else t.req) = r at hcore ⊢
  have hr := h.req.of_core _ hcore
  have hids : r.inputIds = t.req.inputIds := show r.core.inputIds = t.req.core.inputIds by rw [hcore]
  have hlen : r.deviceLen = t.req.deviceLen := show r.core.deviceLen = t.req.core.deviceLen by
    rw [hcore]
  exact {
    req := ⟨hr.uid, hr.sampling, hr.whole, hr.outputLen, hr.span, hr.tokens⟩
    owns := by
      show r.core.tableIdx.isSome = true
      rw [hcore]
      exact h.owns
    within := h.within
    delivered := h.delivered
    active := h.active
    device := by
      show r.deviceLen + 1 = r.inputIds.length + _
      rw [hlen, hids, h.device, List.length_append, List.length_singleton, Nat.add_assoc]
    scripted := by
      rw [List.length_append, List.length_singleton, ← scripted_concat, ← h.scripted]
    start := nofun
    shape := fun _ => ⟨rfl, rfl⟩
    known := fun st hst => by
      show st.tokens <+: r.inputIds
      rw [hids]
      exact h.known st hst }

/-- Draining the one row in flight, with nothing launched behind it. -/
theorem drainInflight_serving
    (h : Serving (greedyConfig cfg next msg) msg t t.lastData.toList k) :
    ∃ t', drainInflight cfg t = some t' ∧ t'.lastData = none ∧
      ((∃ k', Serving (greedyConfig cfg next msg) msg t' [] k' ∧
          2 * k + t.lastData.toList.length ≤ 2 * k' ∧
          (t.fresh = false → t'.fresh = false ∧ t.running = true)) ∨
        (Ended (greedyConfig cfg next msg) msg t' ∧ t.fresh = false ∧
          (flightStops cfg t = true ∨ t.running = false))) := by
  unfold drainInflight flightStops
  cases hl : t.lastData with
  | none =>
    rw [hl] at h
    refine ⟨t, rfl, hl, .inl ⟨k, h, Nat.le_refl _, fun hf => ⟨hf, ?_⟩⟩⟩
    exact h.running hf
  | some tok =>
    rw [hl] at h
    have hlaunched := h.not_fresh
    obtain ⟨t', hdrain, hdata, hyes, hno⟩ :=
      drainRow_serving (h.setLastData none) hlaunched (.inl rfl)
    refine ⟨t', hdrain, hdata, ?_⟩
    have hor : drainEnds cfg { t with lastData := none } tok =
        (!t.running || hitStop cfg (t.req.appendHost tok) tok) := by
      rw [(h.shape hlaunched).2]
      rfl
    cases hends : drainEnds cfg { t with lastData := none } tok with
    | true =>
      refine .inr ⟨(hyes hends).1, hlaunched, ?_⟩
      rw [hends, eq_comm, Bool.or_eq_true, Bool.not_eq_true'] at hor
      exact hor.symm
    | false =>
      rw [hends, eq_comm, Bool.or_eq_false_iff, Bool.not_eq_false'] at hor
      exact .inl ⟨k + 1, (hno hends).1, Nat.le_succ _, fun _ => ⟨(hno hends).2, hor.1⟩⟩

/-- A turn between two passes with nothing in flight behind the drain. -/
theorem TurnInv.of_drained {g : Config} (hdata : t.lastData = none)
    (h : (∃ k', Serving g msg t [] k' ∧ n ≤ 2 * k') ∨ Ended g msg t) : TurnInv g msg n t := by
  rcases h with ⟨k', h, hn⟩ | h
  · refine .inr ⟨k', ?_⟩
    rw [hdata]
    exact ⟨h, hn⟩
  · exact .inl ⟨h, .inl hdata⟩

/-- A pass that launches nothing for a turn that is over only skips its last row. -/
theorem launchAndDrain_ended {g : Config} {env : PassEnv} (h : Ended g msg t)
    (hskip : t.lastData = none ∨ t.inFinished = true) :
    ∃ t', launchAndDrain cfg spec next t env = some t' ∧ TurnInv g msg n t' := by
  unfold launchAndDrain
  rw [h.launched, h.removed, Bool.or_false, Bool.and_false, if_neg Bool.false_ne_true]
  unfold drainInflight
  cases hl : t.lastData with
  | none => exact ⟨t, rfl, .inl ⟨h, .inl hl⟩⟩
  | some tok =>
    rw [hl] at hskip
    have hfin := hskip.resolve_left nofun
    refine ⟨{ t with lastData := none, inFinished := false }, ?_, .inl ⟨⟨h.delivered, h.launched,
      h.removed⟩, .inl rfl⟩⟩
    exact if_pos hfin

/-- A launch with at most one row in flight, and the drain of that row. -/
theorem launch_serving (h : Serving (greedyConfig cfg next msg) msg t t.lastData.toList k)
    (hn : n ≤ 2 * k + t.lastData.toList.length)
    (hguard : t.lastData = none ∨ flightStops cfg t = true ∨ 1 < t.req.remainLen) :
    ∃ t', ((drainInflight cfg (forward cfg spec next t).1).map fun t' =>
        { t' with lastData := some (forward cfg spec next t).2 }) = some t' ∧
      TurnInv (greedyConfig cfg next msg) msg (n + 1) t' := by
  obtain ⟨hserve, hsame, hlaunched⟩ := forward_serving spec h
  generalize hf : forward cfg spec next t = f at hserve hsame hlaunched ⊢
  unfold drainInflight
  rw [hsame]
  cases hl : t.lastData with
  | none =>
    rw [hl] at hserve hn
    exact ⟨_, rfl, .inr ⟨k, hserve.setLastData (some f.2), Nat.succ_le_succ hn⟩⟩
  | some tok =>
    rw [hl] at hserve
    have htok := (flight_head hserve.scripted).1
    -- behind the token in flight there is room to go on, or its text ends the turn
    have hearly : f.1.req.canDecode = true ∨
        hitStop cfg (f.1.req.appendHost tok) tok = true := by
      rw [hl] at hguard
      rcases hguard with hnone | hstop | hroom
      · cases hnone
      · right
        rw [flightStops, hl, Option.any_some] at hstop
        rw [htok] at hstop ⊢
        rwa [hitStop_eq hserve.req, ← hitStop_eq h.req]
      · left
        have hdevice : f.1.req.deviceLen = t.req.deviceLen + 1 := by
          rw [hserve.device, hserve.req.tokens, ← h.req.tokens, h.device, hl]
          rfl
        rw [Req.remainLen, h.req.span, ← hserve.req.span] at hroom
        rw [Req.canDecode, hserve.req.whole, Req.remainLen, Bool.not_false, Bool.true_and,
          decide_eq_true_iff]
        omega
    obtain ⟨t', hdrain, -, hyes, hno⟩ :=
      drainRow_serving (hserve.setLastData none) hlaunched (.inr hearly)
    dsimp only
    rw [hdrain]
    refine ⟨_, rfl, ?_⟩
    cases hends : drainEnds cfg { f.1 with lastData := none } tok with
    | true =>
      obtain ⟨hended, hfin⟩ := hyes hends
      exact .inl ⟨⟨hended.delivered, hended.launched, hended.removed⟩, .inr hfin⟩
    | false =>
      refine .inr ⟨k + 1, (hno hends).1.setLastData (some f.2), ?_⟩
      rw [hl] at hn
      exact Nat.succ_le_succ (Nat.le_trans hn (Nat.le_succ _))

theorem launchAndDrain_serving {env : PassEnv}
    (h : Serving (greedyConfig cfg next msg) msg t t.lastData.toList k)
    (hn : n ≤ 2 * k + t.lastData.toList.length) (hok : LaunchOk cfg t env) :
    ∃ t', launchAndDrain cfg spec next t env = some t' ∧
      TurnInv (greedyConfig cfg next msg) msg (n + env.scheduled.toNat) t' := by
  unfold launchAndDrain
  split
  swap
  · rename_i hno
    obtain ⟨t', hdrain, hdata, hcases⟩ := drainInflight_serving h
    refine ⟨t', hdrain, .of_drained hdata (hcases.imp ?_ And.left)⟩
    rintro ⟨k', hk', hle, hrun⟩
    refine ⟨k', hk', ?_⟩
    -- a turn that is not over and not launched was not scheduled
    have hidle : env.scheduled = false := by
      cases hf : t.fresh with
      | true => simpa [hf] using hno
      | false => simpa [hf, (hrun hf).2] using hno
    rw [hidle]
    exact Nat.le_trans hn hle
  rename_i hlaunch
  have hguard := hok hlaunch
  have hsched : env.scheduled = true := by
    rw [Bool.and_eq_true] at hlaunch
    exact hlaunch.1
  rw [hsched]
  split
  · rename_i hgrow
    rw [if_pos hgrow] at hguard
    obtain ⟨t₁, hdrain, hdata, ⟨k', hk', hle, -⟩ | ⟨-, hfresh, hstop⟩⟩ := drainInflight_serving h
    · rw [hdrain, Option.bind_some]
      have hn' : n ≤ 2 * k' + t₁.lastData.toList.length := Nat.le_add_right_of_le (Nat.le_trans hn hle)
      rw [← Option.toList_none, ← hdata] at hk'
      exact launch_serving hk' hn' (.inl hdata)
    · rw [Bool.and_eq_true, hfresh, Bool.false_or] at hlaunch
      rw [hguard, hlaunch.2] at hstop
      exact absurd hstop (by decide)
  · rename_i hgrow
    rw [if_neg hgrow] at hguard
    exact launch_serving h hn hguard

-- ---------------------------------------------------------------------------
-- The verify step
-- ---------------------------------------------------------------------------

variable (spec) in
theorem stateFor_known {g : Config} (h : Serving g msg t flight k) :
    (t.stateFor spec).tokens <+: t.req.inputIds := by
  unfold Turn.stateFor
  cases hs : t.state with
  | none => exact List.nil_prefix
  | some st => exact h.known st hs

theorem Serving.setState {g : Config} (h : Serving g msg t flight k) {s : Option SpecState}
    (hs : ∀ st ∈ s, st.tokens <+: t.req.inputIds) :
    Serving g msg { t with state := s } flight k :=
  ⟨h.req, h.owns, h.within, h.delivered, h.active, h.device, h.scripted, h.start, h.shape, hs⟩

variable (spec) in
/-- `run_step` on a turn with nothing in flight. -/
theorem runStep_serving (h : Serving (greedyConfig cfg next msg) msg t [] k)
    (hfresh : t.fresh = false) (scratch : Bool) :
    (∃ t', runStep cfg spec next t scratch = some (none, t') ∧ t'.lastData = t.lastData ∧
        Serving (greedyConfig cfg next msg) msg t' [] k) ∨
      ∃ v t', runStep cfg spec next t scratch = some (some v, t') ∧ t'.lastData = t.lastData ∧
        v.Settled ∧ ((∃ k', Serving (greedyConfig cfg next msg) msg t' [] k' ∧ k < k') ∨
          Ended (greedyConfig cfg next msg) msg t') := by
  have hsync := sync_tokens spec.hash (stateFor_known spec h)
  unfold runStep
  dsimp only
  generalize hst : (t.stateFor spec).sync spec.hash t.req.inputIds = st at hsync ⊢
  split
  · -- nothing was drafted, and only the state was synchronised
    have hknown : ∀ st' ∈ some st, st'.tokens <+: t.req.inputIds := by
      rintro _ ⟨⟩
      rw [hsync]
    exact .inl ⟨{ t with state := some st }, rfl, rfl, h.setState hknown⟩
  rename_i hdraft
  obtain ⟨-, -, hfits⟩ := length_draftFor hdraft
  have hdevice := h.device
  rw [List.length_nil, Nat.add_zero] at hdevice
  have hcached := (h.shape hfresh).1.trans hdevice
  obtain ⟨v, hverify, hserves, htable⟩ :=
    verify_serves spec h.req h.within hcached hsync hfits
  obtain ⟨j, hj, hreply, hreq, hstop, hgo⟩ := hserves.delivered
  rw [hverify, Option.map_some]
  refine .inr ⟨v, _, rfl, rfl, hserves.settled, ?_⟩
  have hsent : t.outbox ++ v.reply =
      (List.range (k + j)).map (messageAt (greedyConfig cfg next msg) msg) := by
    rw [hreply, h.delivered, List.range_add, List.range'_eq_map_range, List.map_append]
  cases hs : v.stopped with
  | true =>
    -- all that was emitted is the rest of the turn
    refine .inr ⟨?_, hfresh, Bool.and_false _⟩
    show t.outbox ++ v.reply = _
    rw [hsent, hstop hs]
    rfl
  | false =>
    have hlt := hgo hs
    have hbudget := turnLength_le (greedyConfig cfg next msg) msg
    have hpos := turnReq_length hreq
    have hbefore := turnReq_length h.req
    have hnow := hserves.settled.device
    refine .inl ⟨k + j, ?_, Nat.lt_add_of_pos_right hj⟩
    refine {
      req := hreq
      owns := ?_
      within := hlt
      delivered := hsent
      active := ?_
      device := hnow
      scripted := rfl
      start := fun hyes => absurd (hfresh.symm.trans hyes) Bool.false_ne_true
      shape := fun _ => ⟨?_, ?_⟩
      known := ?_ }
    · rw [htable hs]
      exact h.owns
    · show (t.inFinished || false) = false
      rw [h.active]
      rfl
    · show v.req.cachedLen + 1 = v.req.deviceLen
      rw [hserves.settled.cached]
      omega
    · show (t.running && !false) = v.req.canDecode
      have hcan := (hreq.canDecode _ (m := k + j) (by omega)).mpr (by omega)
      rw [(h.shape hfresh).2, hcan, (h.req.canDecode _ (m := k) (by omega)).mpr (by omega)]
      rfl
    · rintro _ ⟨⟩
      exact hserves.settled.drafter ▸ List.prefix_refl _

variable (cfg next) in
/-- A turn that is over is left alone by a `run_step` that declines. -/
theorem runStep_ended {g : Config} (h : Ended g msg t) {scratch : Bool}
    (hdecl : declines spec t scratch) :
    ∃ t', runStep cfg spec next t scratch = some (none, t') ∧ t'.lastData = t.lastData ∧
      Ended g msg t' := by
  unfold runStep
  dsimp only
  rw [declines] at hdecl
  rw [if_pos hdecl]
  exact ⟨_, rfl, rfl, h.delivered, h.launched, h.removed⟩

-- ---------------------------------------------------------------------------
-- The passes
-- ---------------------------------------------------------------------------

variable (spec) in
/-- `peek` only touches the decoder's state, and hits only for a running request. -/
theorem peek_frame (t : Turn) (env : PassEnv) (stale : Bool) :
    ∃ s, (peek spec t env stale).2 = { t with state := s } ∧
      (t.state = s ∨ ∀ st ∈ s, st.tokens = ((t.stateFor spec).sync spec.hash t.req.inputIds).tokens) ∧
      ((peek spec t env stale).1 = true → t.running = true) := by
  unfold peek
  split
  · exact ⟨t.state, rfl, .inl rfl, nofun⟩
  rename_i hcand
  have hrun : t.running = true := by
    rw [Bool.not_eq_true', Bool.not_eq_false] at hcand
    unfold candidate at hcand
    simp only [Bool.and_eq_true] at hcand
    exact hcand.1.1.1.1.1.2
  dsimp only
  split
  · refine ⟨_, rfl, .inr ?_, nofun⟩
    rintro _ ⟨⟩
    rfl
  split
  · refine ⟨_, rfl, .inr ?_, fun _ => hrun⟩
    rintro _ ⟨⟩
    rfl
  · refine ⟨_, rfl, .inr ?_, fun _ => hrun⟩
    rintro _ ⟨⟩
    rfl

variable (spec) in
theorem peek_serving {g : Config} (h : Serving g msg t t.lastData.toList k) (env : PassEnv)
    (stale : Bool) :
    Serving g msg (peek spec t env stale).2 (peek spec t env stale).2.lastData.toList k ∧
      ((peek spec t env stale).1 = true →
        (peek spec t env stale).2.running = true ∧ (peek spec t env stale).2.fresh = false) ∧
      (peek spec t env stale).2.lastData = t.lastData := by
  obtain ⟨s, hs, hcases, hrun⟩ := peek_frame spec t env stale
  rw [hs]
  refine ⟨h.setState ?_, fun hhit => ⟨hrun hhit, ?_⟩, rfl⟩
  · rcases hcases with rfl | hsync
    · exact h.known
    · intro st hst
      rw [hsync st hst, sync_tokens spec.hash (stateFor_known spec h)]
  · show t.fresh = false
    rw [← Bool.not_eq_true]
    intro hf
    exact absurd ((h.start hf).1.symm.trans (hrun hhit)) Bool.false_ne_true

/-- What a pass owes: the invariant again, and a settled verify step if it made one. -/
def Keeps (g : Config) (msg : UserMsg) (n : Nat) (out : Option (Option Verified × Turn)) : Prop :=
  ∃ o t', out = some (o, t') ∧ TurnInv g msg n t' ∧ ∀ v ∈ o, v.Settled

theorem Keeps.quiet {g : Config} {out : Option Turn} {t' : Turn} (h : out = some t')
    (hinv : TurnInv g msg n t') : Keeps g msg n (out.map (none, ·)) :=
  ⟨none, t', by rw [h, Option.map_some], hinv, fun v hv => absurd hv (Option.not_mem_none v)⟩

theorem Keeps.verified {g : Config} {v : Verified} (hdata : t.lastData = none)
    (h : (∃ k', Serving g msg t [] k' ∧ n ≤ 2 * k') ∨ Ended g msg t) (hv : v.Settled) :
    Keeps g msg n (some (some v, t)) := by
  refine ⟨some v, t, rfl, .of_drained hdata h, ?_⟩
  rintro _ ⟨⟩
  exact hv

theorem LaunchOk.of_drained {env : PassEnv} (h : t.lastData = none) : LaunchOk cfg t env := by
  intro _
  split
  · rw [flightStops, h]
    rfl
  · exact .inl h

variable (spec) in
theorem peek_ended {g : Config} (h : Ended g msg t) (env : PassEnv) (stale : Bool) :
    (peek spec t env stale).1 = false ∧ Ended g msg (peek spec t env stale).2 ∧
      (peek spec t env stale).2.lastData = t.lastData ∧
      (peek spec t env stale).2.inFinished = t.inFinished := by
  obtain ⟨s, hs, -, hrun⟩ := peek_frame spec t env stale
  refine ⟨?_, ?_⟩
  · rw [← Bool.not_eq_true]
    intro hhit
    exact absurd (h.removed.symm.trans (hrun hhit)) Bool.false_ne_true
  · rw [hs]
    exact ⟨⟨h.delivered, h.launched, h.removed⟩, rfl, rfl⟩

theorem overlapPass_keeps {env : PassEnv} (h : TurnInv (greedyConfig cfg next msg) msg n t)
    (hok : PassOk cfg spec true t env) :
    Keeps (greedyConfig cfg next msg) msg (n + env.scheduled.toNat)
      (overlapPass cfg spec next t env) := by
  have hok := hok rfl
  unfold overlapPass
  dsimp only at hok ⊢
  rcases h with ⟨hend, hskip⟩ | ⟨k, h, hn⟩
  · -- the turn is over, and the pass is a plain one
    obtain ⟨hmiss, hend', hdata, hfin⟩ := peek_ended spec hend env t.lastData.isSome
    rw [if_neg (by rw [hmiss]; exact Bool.false_ne_true)]
    obtain ⟨t', hlaunch, hinv⟩ := launchAndDrain_ended hend' (by rw [hdata, hfin]; exact hskip)
    exact .quiet hlaunch hinv
  obtain ⟨h₁, hrun, hsame⟩ := peek_serving spec h env t.lastData.isSome
  rw [← hsame] at hn
  generalize peek spec t env t.lastData.isSome = peeked at *
  split at hok
  swap
  · rename_i hmiss
    rw [if_neg hmiss]
    obtain ⟨t', hlaunch, hinv⟩ := launchAndDrain_serving h₁ hn hok
    exact .quiet hlaunch hinv
  -- what is in flight is drained before the drafter is asked
  rename_i hhit
  rw [if_pos hhit]
  obtain ⟨t₂, hdrain, hnone, ⟨k', hk', hle, hfresh⟩ | ⟨hend, -, hstop⟩⟩ := drainInflight_serving h₁
  · rw [hdrain, Option.bind_some]
    obtain ⟨t₃, hstep, hdata, hs⟩ | ⟨v, t₃, hstep, hdata, hv, hs⟩ :=
      runStep_serving spec hk' (hfresh (hrun hhit).2).1 env.scratch
    · rw [hstep, Option.bind_some]
      replace hdata := hdata.trans hnone
      have hn' : n ≤ 2 * k' + t₃.lastData.toList.length :=
        Nat.le_add_right_of_le (Nat.le_trans hn hle)
      rw [← Option.toList_none, ← hdata] at hs
      obtain ⟨t', hlaunch, hinv⟩ := launchAndDrain_serving hs hn' (.of_drained hdata)
      exact .quiet hlaunch hinv
    · rw [hstep, Option.bind_some]
      refine .verified (hdata.trans hnone) (hs.imp_left ?_) hv
      rintro ⟨k'', hs, hlt⟩
      have hbit := Bool.toNat_le env.scheduled
      exact ⟨k'', hs, by omega⟩
  · rw [(hrun hhit).1] at hstop
    have hstop := hstop.resolve_right (by decide)
    rw [hstop] at hok
    have hdecl := (hok.resolve_left (by decide)) t₂ hdrain
    obtain ⟨t₃, hstep, hdata, hend₃⟩ := runStep_ended cfg next hend hdecl
    obtain ⟨t', hlaunch, hinv⟩ := launchAndDrain_ended hend₃ (.inl (hdata.trans hnone))
    rw [hdrain, Option.bind_some, hstep, Option.bind_some]
    exact .quiet hlaunch hinv

variable (spec) in
theorem launchDrained_serving (env : PassEnv) (hdata : t.lastData = none)
    (h : Serving (greedyConfig cfg next msg) msg t [] k) (hn : n ≤ 2 * k) :
    ∃ t', launchDrained cfg spec next t env = some t' ∧ t'.lastData = none ∧
      TurnInv (greedyConfig cfg next msg) msg (n + env.scheduled.toNat) t' := by
  unfold launchDrained
  split
  swap
  · rename_i hno
    refine ⟨t, rfl, hdata, .of_drained hdata (.inl ⟨k, h, ?_⟩)⟩
    have hidle : env.scheduled = false := by
      cases hf : t.fresh with
      | true => simpa [hf] using hno
      | false => simpa [hf, h.running hf] using hno
    rw [hidle]
    exact hn
  rw [← Option.toList_none, ← hdata] at h
  obtain ⟨hserve, hsame, hlaunched⟩ := forward_serving spec h
  rw [hdata] at hserve
  obtain ⟨t', hdrain, hdata', hyes, hno⟩ := drainRow_serving hserve hlaunched (.inl rfl)
  have hnone := hdata'.trans (hsame.trans hdata)
  refine ⟨t', hdrain, hnone, .of_drained hnone ?_⟩
  cases hends : drainEnds cfg (forward cfg spec next t).1 (forward cfg spec next t).2 with
  | true => exact .inr (hyes hends).1
  | false =>
    have hbit := Bool.toNat_le env.scheduled
    exact .inl ⟨k + 1, (hno hends).1, by omega⟩

/-- `normal_loop` drains in the same pass, so nothing is in flight between two. -/
theorem normalPass_keeps (env : PassEnv) (h : TurnInv (greedyConfig cfg next msg) msg n t)
    (hdata : t.lastData = none) :
    ∃ o t', normalPass cfg spec next t env = some (o, t') ∧ t'.lastData = none ∧
      TurnInv (greedyConfig cfg next msg) msg (n + env.scheduled.toNat) t' ∧
      ∀ v ∈ o, v.Settled := by
  unfold normalPass
  dsimp only
  rcases h with ⟨hend, -⟩ | ⟨k, h, hn⟩
  · obtain ⟨hmiss, hend', hsame, -⟩ := peek_ended spec hend env false
    rw [if_neg (by rw [hmiss]; exact Bool.false_ne_true)]
    have hnone := hsame.trans hdata
    refine ⟨none, _, ?_, hnone, .of_drained hnone (.inr hend'),
      fun v hv => absurd hv (Option.not_mem_none v)⟩
    rw [launchDrained, hend'.launched, hend'.removed, Bool.or_false, Bool.and_false,
      if_neg Bool.false_ne_true, Option.map_some]
  · obtain ⟨h₁, hrun, hsame⟩ := peek_serving spec h env false
    have hnone := hsame.trans hdata
    generalize peek spec t env false = peeked at *
    rw [hdata, Option.toList_none, List.length_nil, Nat.add_zero] at hn
    rw [hnone] at h₁
    split
    swap
    · obtain ⟨t', hlaunch, hnone', hinv⟩ := launchDrained_serving spec env hnone h₁ hn
      exact ⟨none, t', by rw [hlaunch, Option.map_some], hnone', hinv,
        fun v hv => absurd hv (Option.not_mem_none v)⟩
    rename_i hhit
    obtain ⟨t₃, hstep, hdata₃, hs⟩ | ⟨v, t₃, hstep, hdata₃, hv, hs⟩ :=
      runStep_serving spec h₁ (hrun hhit).2 env.scratch
    · obtain ⟨t', hlaunch, hnone', hinv⟩ :=
        launchDrained_serving spec env (hdata₃.trans hnone) hs hn
      refine ⟨none, t', ?_, hnone', hinv, fun v hv => absurd hv (Option.not_mem_none v)⟩
      rw [hstep, Option.bind_some]
      dsimp only [Option.isSome]
      rw [if_neg Bool.false_ne_true, hlaunch, Option.map_some]
    · refine ⟨some v, t₃, ?_, hdata₃.trans hnone, .of_drained (hdata₃.trans hnone)
        (hs.imp_left ?_), ?_⟩
      · rw [hstep, Option.bind_some]
        rfl
      · rintro ⟨k', hs, hlt⟩
        have hbit := Bool.toNat_le env.scheduled
        exact ⟨k', hs, by omega⟩
      · rintro _ ⟨⟩
        exact hv

-- ---------------------------------------------------------------------------
-- Whole runs
-- ---------------------------------------------------------------------------

/-- The invariant of a loop between two passes. -/
def LoopInv (g : Config) (msg : UserMsg) (overlap : Bool) (n : Nat) (t : Turn) : Prop :=
  TurnInv g msg n t ∧ (overlap = false → t.lastData = none)

theorem pass_keeps {overlap : Bool} {env : PassEnv}
    (h : LoopInv (greedyConfig cfg next msg) msg overlap n t) (hok : PassOk cfg spec overlap t env) :
    ∃ o t', pass cfg spec next overlap t env = some (o, t') ∧ (∀ v ∈ o, v.Settled) ∧
      LoopInv (greedyConfig cfg next msg) msg overlap (n + env.scheduled.toNat) t' := by
  cases overlap with
  | true =>
    obtain ⟨o, t', hpass, hinv, hv⟩ := overlapPass_keeps h.1 hok
    exact ⟨o, t', hpass, hv, hinv, nofun⟩
  | false =>
    obtain ⟨o, t', hpass, hnone, hinv, hv⟩ := normalPass_keeps env h.1 (h.2 rfl)
    exact ⟨o, t', hpass, hv, hinv, fun _ => hnone⟩

theorem loopInv_run {overlap : Bool} {envs : List PassEnv} {t' : Turn}
    (h : LoopInv (greedyConfig cfg next msg) msg overlap n t)
    (hrun : guardedRun (passStep cfg spec next overlap) (PassOk cfg spec overlap) t envs = some t') :
    LoopInv (greedyConfig cfg next msg) msg overlap (n + envs.countP PassEnv.scheduled) t' := by
  induction envs generalizing t n with
  | nil =>
    cases hrun
    exact h
  | cons env envs ih =>
    rw [guardedRun] at hrun
    split at hrun
    swap
    · cases hrun
    rename_i hok
    obtain ⟨o, t₁, hpass, -, hinv⟩ := pass_keeps h hok
    rw [passStep, hpass, Option.map_some, Option.bind_some] at hrun
    have hend := ih hinv hrun
    rw [List.countP_cons, Nat.add_comm (List.countP _ _), ← Nat.add_assoc]
    cases hs : env.scheduled <;> simpa [hs] using hend

theorem loopInv_reach {overlap : Bool} (hpos : 0 < msg.samplingParams.maxTokens)
    {tableIdx cachedLen : Nat} {res : TrackSlots}
    (hreach : Reach (passStep cfg spec next overlap) (PassOk cfg spec overlap)
      (.start msg tableIdx cachedLen res) t) :
    LoopInv (greedyConfig cfg next msg) msg overlap 0 t := by
  refine hreach.invariant ⟨turnInv_start hpos tableIdx cachedLen res, fun _ => rfl⟩ ?_
  intro t env t' h hok hstep
  obtain ⟨o, t₁, hpass, -, hinv, hnone⟩ := pass_keeps h hok
  rw [passStep, hpass, Option.map_some, Option.some.injEq] at hstep
  subst hstep
  refine ⟨hinv.imp_right ?_, hnone⟩
  rintro ⟨k, h, -⟩
  exact ⟨k, h, Nat.zero_le _⟩

/--
**Speculation emits the plain greedy output.** In every run of either loop whose
passes meet `PassOk`, from any admitted prompt with a budget, and whatever the draft
length, the gate, the anchor, the EOS set and the stop strings: the messages sent are
the first of token-by-token greedy decoding, and all of them once the request is freed;
no assertion of the next pass fails, and a verify step it makes leaves the lengths and
the drafter's tokens settled. `2 * max_tokens` scheduled passes send everything.
-/
theorem speculation_is_greedy (cfg : Config) (spec : SpecConfig) (next : List Token → Token)
    (msg : UserMsg) (overlap : Bool) (tableIdx cachedLen : Nat) (res : TrackSlots)
    (hpos : 0 < msg.samplingParams.maxTokens) :
    (∀ t, Reach (passStep cfg spec next overlap) (PassOk cfg spec overlap)
        (.start msg tableIdx cachedLen res) t →
      t.outbox <+: expected (greedyConfig cfg next msg) msg ∧
      (t.req.tableIdx = none → t.outbox = expected (greedyConfig cfg next msg) msg) ∧
      ∀ env, PassOk cfg spec overlap t env →
        ∃ o t', pass cfg spec next overlap t env = some (o, t') ∧ ∀ v ∈ o, v.Settled) ∧
    ∀ envs t, guardedRun (passStep cfg spec next overlap) (PassOk cfg spec overlap)
        (.start msg tableIdx cachedLen res) envs = some t →
      2 * msg.samplingParams.maxTokens ≤ envs.countP PassEnv.scheduled →
      t.outbox = expected (greedyConfig cfg next msg) msg := by
  refine ⟨fun t hreach => ?_, fun envs t hrun hmany => ?_⟩
  · have h := loopInv_reach hpos hreach
    refine ⟨?_, fun hfreed => ?_, fun env hok => ?_⟩
    · rcases h.1 with ⟨hend, -⟩ | ⟨k, hs, -⟩
      · rw [hend.delivered]
      · rw [hs.delivered]
        exact delivered_prefix _ (Nat.le_of_lt hs.within)
    · rcases h.1 with ⟨hend, -⟩ | ⟨k, hs, -⟩
      · exact hend.delivered
      · have howns := hs.owns
        rw [hfreed] at howns
        cases howns
    · obtain ⟨o, t', hpass, hv, -⟩ := pass_keeps h hok
      exact ⟨o, t', hpass, hv⟩
  · have h := loopInv_run ⟨turnInv_start hpos tableIdx cachedLen res, fun _ => rfl⟩ hrun
    rcases h.1 with ⟨hend, -⟩ | ⟨k, hs, hn⟩
    · exact hend.delivered
    · have hbudget := turnLength_le (greedyConfig cfg next msg) msg
      have hwithin := hs.within
      have hflight : t.lastData.toList.length ≤ 1 := Option.length_toList_le
      omega

-- ---------------------------------------------------------------------------
-- Two turns of `overlap_loop`
-- ---------------------------------------------------------------------------

/-- A prompt with a budget of four tokens. -/
def fourTokens (inputIds : List Token) : UserMsg where
  uid := 1
  inputIds := inputIds
  samplingParams := ⟨4, false, []⟩
  mmItems := []
  sessionId := none
  sessionTtl := none
  sessionReclaimable := false
  hiddenStates := none
  prefixBoundary := none

/-- Drafts of at most two tokens after any repeated token. -/
def SpecConfig.unigram : SpecConfig where
  n := 1
  draftLen := 2
  adaptive := true
  postDrain := true
  gateSeed := false
  hash ids := ids.length
  isHybrid := false
  pageSize := 1
  nPos := Nat.le_refl 1

def PassEnv.quiet : PassEnv := ⟨true, true, true, true, false⟩

/-- The model repeats 1 and 2 in turn, and answers 0 (an EOS) to a 7. -/
def pingPong (ids : List Token) : Token :=
  match ids.getLast? with
  | some 1 => 2
  | some 7 => 0
  | _ => 1

theorem copied_span_run :
    (guardedRun (passStep .plain .unigram pingPong true) (PassOk .plain .unigram true)
      (.start (fourTokens [1, 2, 1]) 0 0 ⟨none, false⟩) [.quiet, .quiet]).map (fun t =>
        (t.outbox.map DetokenizeMsg.nextToken, t.req.tableIdx)) = some ([2, 1, 2, 1], none) := by
  decide

/-- A turn of four tokens, the last three sent by one verify step. -/
theorem copied_span_sent : ∃ t : Turn, t.outbox.map DetokenizeMsg.nextToken = [2, 1, 2, 1] ∧
    t.outbox = expected (greedyConfig .plain pingPong (fourTokens [1, 2, 1]))
      (fourTokens [1, 2, 1]) := by
  obtain ⟨t, hrun, ht⟩ := Option.map_eq_some_iff.mp copied_span_run
  rw [Prod.mk.injEq] at ht
  exact ⟨t, ht.1, ((speculation_is_greedy .plain .unigram pingPong (fourTokens [1, 2, 1]) true 0 0
    ⟨none, false⟩ (by decide)).1 t (Reach.refl.append_guardedRun hrun)).2.1 ht.2⟩

theorem stopped_turn_run :
    (run (passStep .plain .unigram pingPong true)
      (.start (fourTokens [0, 5, 7]) 0 0 ⟨none, false⟩) [.quiet, .quiet]).map (fun t =>
        t.outbox.map fun m => (m.nextToken, m.finished)) = some [(0, true), (1, false)] := by
  decide

/-- The prompt holds the EOS that the model answers with. The drain before the verify
step finishes the turn, `run_step` takes up the freed request all the same, and the
client gets a token after its finished message. -/
theorem verify_after_stop : ¬ ∀ t, Reach (passStep .plain .unigram pingPong true)
    (fun _ _ => True) (.start (fourTokens [0, 5, 7]) 0 0 ⟨none, false⟩) t →
      t.outbox <+: expected (greedyConfig .plain pingPong (fourTokens [0, 5, 7]))
        (fourTokens [0, 5, 7]) := by
  intro h
  obtain ⟨t, hrun, ht⟩ := Option.map_eq_some_iff.mp stopped_turn_run
  have hlen := (h t (reach_of_run _ hrun)).length_le
  have htwo := congrArg List.length ht
  rw [List.length_map] at htwo
  have hone : (expected (greedyConfig .plain pingPong (fourTokens [0, 5, 7]))
      (fourTokens [0, 5, 7])).length = 1 := by decide
  rw [htwo, hone] at hlen
  exact absurd hlen (by decide)

end FreeToken.Speculation
