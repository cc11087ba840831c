import FreeToken.Scheduler.Stream
import FreeToken.Speculation.Decoder

/-!
# One verify step emits the greedy continuation

Token-by-token greedy decoding is the promised stream of the scheduler
(`Scheduler.expected`) for the script that `next` writes after the prompt.

* `finishLoop_spec` — the replies to the emitted tokens are the promised ones, up to
  the first that ends the turn.
* `verify_serves`   — so are those of a whole step, and it leaves the lengths and the
  drafter's tokens as an ordinary step does.
-/

namespace FreeToken.Speculation

open FreeToken.Scheduler FreeToken.Lib

variable (cfg : Config) (spec : SpecConfig) (next : List Token → Token)

/-- The script the model writes after the prompt, one greedy token at a time. -/
def greedyConfig (msg : UserMsg) : Config :=
  { cfg with script := fun _ i => next (chain next msg.inputIds i) }

theorem tokensAfter_greedy (msg : UserMsg) (k : Nat) :
    tokensAfter (greedyConfig cfg next msg) msg k = chain next msg.inputIds k := by
  induction k with
  | zero => exact List.append_nil _
  | succ k ih =>
    rw [tokensAfter_succ, ih, chain_succ]
    rfl

variable {cfg spec next} {msg : UserMsg} {r : Req TrackSlots} {st : SpecState} {k m : Nat}

theorem turnReq_length (hr : TurnReq (greedyConfig cfg next msg) msg r k) :
    r.inputIds.length = msg.inputIds.length + k := by
  rw [hr.tokens, tokensAfter_greedy, length_chain]

/-- The tokens scripted from position `k` on. -/
def scripted (g : Config) (msg : UserMsg) (k m : Nat) : List Token :=
  (List.range' k m).map (g.script msg.uid)

theorem tokensAfter_add (g : Config) (msg : UserMsg) (k m : Nat) :
    tokensAfter g msg (k + m) = tokensAfter g msg k ++ scripted g msg k m := by
  induction m with
  | zero => exact (List.append_nil _).symm
  | succ m ih =>
    rw [← Nat.add_assoc, tokensAfter_succ, ih, scripted, scripted, List.range'_concat,
      List.map_append, List.append_assoc, Nat.one_mul]
    rfl

-- ---------------------------------------------------------------------------
-- The drafter's tokens
-- ---------------------------------------------------------------------------

theorem sync_tokens (hash : List Token → Int) {ids : List Token} (h : st.tokens <+: ids) :
    (st.sync hash ids).tokens = ids := by
  obtain ⟨rest, rfl⟩ := h
  unfold SpecState.sync
  dsimp only
  split
  · show st.tokens ++ (st.tokens ++ rest).drop st.tokens.length = st.tokens ++ rest
    rw [List.drop_left]
  · rename_i hle
    rw [List.length_append] at hle
    have hnil : rest = [] := List.length_eq_zero_iff.mp (by omega)
    subst hnil
    rw [List.append_nil, if_neg (Nat.lt_irrefl _)]

@[simp] theorem note_tokens (drafted accepted : Nat) :
    (st.note drafted accepted).tokens = st.tokens := by
  unfold SpecState.note
  split
  · rfl
  split
  · rfl
  split <;> rfl

@[simp] theorem learn_tokens (draftLen drafted accepted : Nat) :
    (st.learn draftLen drafted accepted).tokens = st.tokens := by
  unfold SpecState.learn
  dsimp only
  repeat' split
  all_goals simp only [note_tokens]

/-- A draft that is not empty leaves room for all its tokens and the bonus token. -/
theorem length_draftFor {scratch : Bool} (h : draftFor spec r st scratch ≠ []) :
    r.deviceLen = r.cachedLen + 1 ∧ st.tokens.length = r.deviceLen ∧
      r.cachedLen + (draftFor spec r st scratch).length + 2 ≤ r.maxDeviceLen := by
  unfold draftFor at h ⊢
  split at h
  · exact absurd rfl h
  rename_i hshape
  rw [not_or, not_not, not_not] at hshape
  rw [if_neg (by omega)]
  have hlen := st.drafter.length_draft_le st.tokens (budget spec r st scratch)
  have hpos : 0 < (st.drafter.draft st.tokens (budget spec r st scratch)).length :=
    List.length_pos_iff.mpr h
  have hbudget : budget spec r st scratch ≤ r.maxDeviceLen - r.cachedLen - 2 := by
    unfold budget
    dsimp only
    repeat' split
    all_goals omega
  exact ⟨hshape.1, hshape.2, by omega⟩

-- ---------------------------------------------------------------------------
-- The replies
-- ---------------------------------------------------------------------------

theorem turnReq_noteAnchor {g : Config} {tok : Token} {finished : Bool} {len : Nat}
    (hr : TurnReq g msg r k) : TurnReq g msg (noteAnchor cfg r tok finished len) k := by
  unfold noteAnchor
  split
  · exact ⟨hr.uid, hr.sampling, hr.whole, hr.outputLen, hr.span, hr.tokens⟩
  · exact hr

theorem turnReq_appended {g : Config} (hr : TurnReq g msg r k) :
    TurnReq g msg (r.appendHost (g.script msg.uid k)) (k + 1) where
  uid := hr.uid
  sampling := hr.sampling
  whole := hr.whole
  outputLen := hr.outputLen
  span := hr.span
  tokens := by
    show r.inputIds ++ [g.script msg.uid k] = _
    rw [hr.tokens, tokensAfter_succ]

/-- The reply of a verify step is the reply the drain would send at that length. -/
theorem finishMsg_eq (hwhole : r.isChunked = false) (tok : Token) (posEnd : Nat) :
    finishMsg cfg r tok posEnd = detokenizeMsg cfg { r with deviceLen := posEnd } tok := by
  have hcan : decide (r.maxDeviceLen ≤ posEnd) =
      !({ r with deviceLen := posEnd } : Req TrackSlots).canDecode := by
    rw [Req.canDecode, Req.remainLen]
    dsimp only
    rw [hwhole, Bool.not_false, Bool.true_and, ← decide_not, decide_eq_decide]
    omega
  unfold finishMsg detokenizeMsg
  rw [hcan]
  rfl

theorem finishMsg_eq_messageAt (hr : TurnReq (greedyConfig cfg next msg) msg r k)
    (hk : k < turnLength (greedyConfig cfg next msg) msg) :
    finishMsg cfg (r.appendHost ((greedyConfig cfg next msg).script msg.uid k))
        ((greedyConfig cfg next msg).script msg.uid k) (msg.inputIds.length + k + 1) =
      messageAt (greedyConfig cfg next msg) msg k := by
  have hr' : TurnReq (greedyConfig cfg next msg) msg
      { r with deviceLen := msg.inputIds.length + k + 1 } k :=
    ⟨hr.uid, hr.sampling, hr.whole, hr.outputLen, hr.span, hr.tokens⟩
  have hcan := hr'.canDecode _ (Nat.add_assoc msg.inputIds.length k 1)
  rw [finishMsg_eq (r := r.appendHost _) hr.whole]
  refine detokenizeMsg_eq_messageAt _ hr' hk (fun hno => .inr ?_) fun hlast => ?_
  · rw [← Bool.not_eq_true, hcan] at hno
    omega
  · rw [← Bool.not_eq_true, hcan]
    omega

/-- What the reply loop leaves alone. -/
structure SameLens (r r' : Req TrackSlots) : Prop where
  cached : r'.cachedLen = r.cachedLen
  device : r'.deviceLen = r.deviceLen
  table  : r'.tableIdx = r.tableIdx

theorem SameLens.trans {r r' r'' : Req TrackSlots} (h : SameLens r r') (h' : SameLens r' r'') :
    SameLens r r'' :=
  ⟨h'.cached.trans h.cached, h'.device.trans h.device, h'.table.trans h.table⟩

/-- One token of the loop: its reply is the promised one, and it is the last when the
turn ends with it. -/
theorem finishLoop_step (hr : TurnReq (greedyConfig cfg next msg) msg r k)
    (hk : k < turnLength (greedyConfig cfg next msg) msg) (m : Nat) :
    ∃ r', TurnReq (greedyConfig cfg next msg) msg r' (k + 1) ∧ SameLens r r' ∧
      finishLoop cfg (tokensAfter (greedyConfig cfg next msg) msg (k + 1 + m))
          (scripted (greedyConfig cfg next msg) msg k (m + 1)) (msg.inputIds.length + k) r =
        if k + 1 = turnLength (greedyConfig cfg next msg) msg then
          (r', [messageAt (greedyConfig cfg next msg) msg k], true)
        else
          let out := finishLoop cfg (tokensAfter (greedyConfig cfg next msg) msg (k + 1 + m))
            (scripted (greedyConfig cfg next msg) msg (k + 1) m) (msg.inputIds.length + (k + 1)) r'
          (out.1, messageAt (greedyConfig cfg next msg) msg k :: out.2.1, out.2.2) := by
  have htake : (tokensAfter (greedyConfig cfg next msg) msg (k + 1 + m)).take
      (msg.inputIds.length + k + 1) = tokensAfter (greedyConfig cfg next msg) msg (k + 1) := by
    rw [tokensAfter_add _ _ (k + 1) m]
    refine List.take_left' ?_
    rw [tokensAfter_greedy, length_chain, Nat.add_assoc]
  have hreq : ({ r with inputIds := tokensAfter (greedyConfig cfg next msg) msg (k + 1) } :
      Req TrackSlots) = r.appendHost ((greedyConfig cfg next msg).script msg.uid k) := by
    rw [Req.appendHost, hr.tokens, tokensAfter_succ]
  have hfin : (messageAt (greedyConfig cfg next msg) msg k).finished =
      decide (k + 1 = turnLength (greedyConfig cfg next msg) msg) := rfl
  refine ⟨noteAnchor cfg (r.appendHost ((greedyConfig cfg next msg).script msg.uid k))
    ((greedyConfig cfg next msg).script msg.uid k)
    (decide (k + 1 = turnLength (greedyConfig cfg next msg) msg)) (msg.inputIds.length + k + 1),
    turnReq_noteAnchor (turnReq_appended hr), ?_, ?_⟩
  rotate_left
  · rw [scripted, List.range'_succ, List.map_cons, finishLoop, htake, hreq,
      finishMsg_eq_messageAt hr hk, hfin]
    simp only [decide_eq_true_eq]
    rfl
  · unfold noteAnchor
    split <;> exact ⟨rfl, rfl, rfl⟩

/-- The replies to scripted tokens are the promised messages, up to the one that
ends the turn; by induction on the tokens still to emit. -/
theorem finishLoop_spec (hr : TurnReq (greedyConfig cfg next msg) msg r k)
    (hk : k < turnLength (greedyConfig cfg next msg) msg) :
    ∃ j ≤ m, ∃ r' stopped,
      finishLoop cfg (tokensAfter (greedyConfig cfg next msg) msg (k + m))
          (scripted (greedyConfig cfg next msg) msg k m) (msg.inputIds.length + k) r =
        (r', (List.range' k j).map (messageAt (greedyConfig cfg next msg) msg), stopped) ∧
      TurnReq (greedyConfig cfg next msg) msg r' (k + j) ∧ SameLens r r' ∧
      (stopped = true → k + j = turnLength (greedyConfig cfg next msg) msg) ∧
      (stopped = false → j = m ∧ k + m < turnLength (greedyConfig cfg next msg) msg) := by
  induction m generalizing k r with
  | zero =>
    exact ⟨0, Nat.le_refl 0, r, false, rfl, hr, ⟨rfl, rfl, rfl⟩, nofun, fun _ => ⟨rfl, hk⟩⟩
  | succ m ih =>
    obtain ⟨r₁, hr₁, hlens₁, hstep⟩ := finishLoop_step hr hk m
    rw [show k + (m + 1) = k + 1 + m by omega, hstep]
    by_cases hlast : k + 1 = turnLength (greedyConfig cfg next msg) msg
    · rw [if_pos hlast]
      exact ⟨1, by omega, r₁, true, rfl, hr₁, hlens₁, fun _ => hlast, nofun⟩
    · rw [if_neg hlast]
      obtain ⟨j, hj, r', stopped, hloop, hr', hlens, hstop, hgo⟩ := ih hr₁ (by omega)
      rw [hloop]
      refine ⟨j + 1, Nat.succ_le_succ hj, r', stopped, rfl, ?_, hlens₁.trans hlens, fun h => ?_,
        fun h => ?_⟩
      · rwa [show k + (j + 1) = k + 1 + j by omega]
      · have := hstop h
        omega
      · obtain ⟨rfl, hlt⟩ := hgo h
        exact ⟨rfl, hlt⟩

-- ---------------------------------------------------------------------------
-- The whole step
-- ---------------------------------------------------------------------------

/-- The shape an ordinary decode step leaves, with the drafter up to date. -/
structure Verified.Settled (v : Verified) : Prop where
  cached  : v.req.cachedLen = v.req.inputIds.length - 1
  device  : v.req.deviceLen = v.req.inputIds.length
  within  : v.req.inputIds.length ≤ v.req.maxDeviceLen
  drafter : v.state.tokens = v.req.inputIds

theorem snapshotToolcallAnchor_core (r : Req TrackSlots) :
    (snapshotToolcallAnchor spec r).core = r.core := by
  unfold snapshotToolcallAnchor
  split
  · rfl
  split <;> rfl

theorem commit_eq (r : Req TrackSlots) (st : SpecState) (emitted : List Token)
    (hlen : r.inputIds.length = r.cachedLen + 1)
    (hfits : r.cachedLen + 1 + emitted.length ≤ r.maxDeviceLen) :
    commit r st r.cachedLen emitted = some
      ({ r with
          inputIds := r.inputIds ++ emitted
          cachedLen := r.cachedLen + emitted.length
          deviceLen := r.cachedLen + emitted.length + 1 },
        { st with tokens := st.tokens ++ emitted }) := by
  unfold commit appendHost
  rw [if_pos (by omega), Option.bind_some]
  dsimp only
  rw [if_pos]
  rw [List.length_append, hlen]
  omega

/-- A step from a turn with `k` tokens delivered sends the next promised messages, at
least one, and leaves the request with just their tokens. -/
structure Verified.Serves (g : Config) (msg : UserMsg) (k : Nat) (v : Verified) : Prop where
  settled   : v.Settled
  delivered : ∃ j, 0 < j ∧ v.reply = (List.range' k j).map (messageAt g msg) ∧
    TurnReq g msg v.req (k + j) ∧
    (v.stopped = true → k + j = turnLength g msg) ∧ (v.stopped = false → k + j < turnLength g msg)

theorem finish_serves (hr : TurnReq (greedyConfig cfg next msg) msg r (k + (m + 1)))
    (hk : k < turnLength (greedyConfig cfg next msg) msg)
    (hcached : r.cachedLen + 1 = r.inputIds.length) (hdevice : r.deviceLen = r.inputIds.length)
    (hwithin : r.inputIds.length ≤ r.maxDeviceLen) (htokens : st.tokens = r.inputIds)
    {len : Nat} (hlen : len + 1 = msg.inputIds.length + k) :
    (finish cfg r st len (scripted (greedyConfig cfg next msg) msg k (m + 1))).Serves
        (greedyConfig cfg next msg) msg k ∧
      ((finish cfg r st len (scripted (greedyConfig cfg next msg) msg k (m + 1))).stopped = false →
        (finish cfg r st len (scripted (greedyConfig cfg next msg) msg k (m + 1))).req.tableIdx =
          r.tableIdx) := by
  -- the first round of the loop overwrites `input_ids` with the tokens it covers
  have hback : TurnReq (greedyConfig cfg next msg) msg
      { r with inputIds := tokensAfter (greedyConfig cfg next msg) msg k } k :=
    ⟨hr.uid, hr.sampling, hr.whole, hr.outputLen, hr.span, rfl⟩
  obtain ⟨j, hj, r', stopped, hloop, hr', hlens, hstop, hgo⟩ :=
    finishLoop_spec (m := m + 1) hback hk
  have hsame : finishLoop cfg r.inputIds (scripted (greedyConfig cfg next msg) msg k (m + 1))
      (len + 1) r = (r', (List.range' k j).map (messageAt (greedyConfig cfg next msg) msg),
        stopped) := by
    rw [hr.tokens, hlen]
    exact hloop
  have hspan := hr'.span
  have hlen' := turnReq_length hr'
  have hall := turnReq_length hr
  unfold finish
  dsimp only
  rw [hsame]
  dsimp only
  cases stopped with
  | false =>
    obtain ⟨rfl, hlt⟩ := hgo rfl
    have hids : r'.inputIds = r.inputIds := hr'.tokens.trans hr.tokens.symm
    rw [if_neg Bool.false_ne_true]
    refine ⟨⟨⟨?_, ?_, ?_, ?_⟩, m + 1, Nat.succ_pos m, rfl, hr', nofun, fun _ => hlt⟩,
      fun _ => hlens.table⟩
    · show r'.cachedLen = r'.inputIds.length - 1
      rw [hlens.cached, hids, ← hcached]
      rfl
    · exact hlens.device.trans (hdevice.trans (congrArg _ hids.symm))
    · show r'.inputIds.length ≤ r'.maxDeviceLen
      rw [hids, hspan, ← hr.span]
      exact hwithin
    · exact htokens.trans hids.symm
  | true =>
    have hend := hstop rfl
    rw [if_pos rfl]
    refine ⟨⟨⟨rfl, rfl, ?_, ?_⟩, j, by omega, rfl, ?_, fun _ => hend, nofun⟩, nofun⟩
    · show r'.inputIds.length ≤ r'.maxDeviceLen
      rw [hspan, ← hr.span]
      omega
    · show st.tokens.take r'.inputIds.length = r'.inputIds
      rw [htokens, hlen', hr'.tokens, hr.tokens]
      rw [show k + (m + 1) = k + j + (m + 1 - j) by omega, tokensAfter_add]
      refine List.take_left' ?_
      rw [tokensAfter_greedy, length_chain]
    · exact ⟨hr'.uid, hr'.sampling, hr'.whole, hr'.outputLen, hr'.span, hr'.tokens⟩

variable (spec) in
/-- **A verify step is some steps of greedy decoding.** From a request in the shape of
an ordinary decode step, with a draft that leaves room for the bonus token. -/
theorem verify_serves (hr : TurnReq (greedyConfig cfg next msg) msg r k)
    (hk : k < turnLength (greedyConfig cfg next msg) msg) {draft : List Token}
    (hcached : r.cachedLen + 1 = r.inputIds.length) (htokens : st.tokens = r.inputIds)
    (hfits : r.cachedLen + draft.length + 2 ≤ r.maxDeviceLen) :
    ∃ v, verify cfg spec next r st draft = some v ∧ v.Serves (greedyConfig cfg next msg) msg k ∧
      (v.stopped = false → v.req.tableIdx = r.tableIdx) := by
  unfold verify
  dsimp only
  have hchain := emitted_eq_chain next r.inputIds draft
  have hle := acceptedCount_le draft (rows next r.inputIds draft)
  generalize hacc : acceptedCount draft (rows next r.inputIds draft) = a at *
  have hcount : ((rows next r.inputIds draft).take (a + 1)).length = a + 1 := by
    rw [List.length_take, length_rows]
    omega
  -- what greedy verification emits is what the model would have said by itself
  have hemitted : (rows next r.inputIds draft).take (a + 1) =
      scripted (greedyConfig cfg next msg) msg k (a + 1) := by
    have hall : r.inputIds ++ (rows next r.inputIds draft).take (a + 1) =
        r.inputIds ++ scripted (greedyConfig cfg next msg) msg k (a + 1) := by
      rw [hchain, hr.tokens, ← tokensAfter_add, tokensAfter_greedy, tokensAfter_greedy,
        chain_add next msg.inputIds k]
    exact List.append_cancel_left hall
  rw [hemitted] at hcount ⊢
  -- an anchor snapshot leaves the request as it is
  have hcore : (if cfg.toolcallAnchorId.isSome = true then snapshotToolcallAnchor spec r
      else r).core = r.core := by
    split
    · exact snapshotToolcallAnchor_core r
    · rfl
  generalize (if cfg.toolcallAnchorId.isSome = true then snapshotToolcallAnchor spec r
    else r) = r₀ at hcore ⊢
  have hids : r₀.inputIds = r.inputIds := show r₀.core.inputIds = r.core.inputIds by rw [hcore]
  have hlen : r₀.cachedLen = r.cachedLen := show r₀.core.cachedLen = r.core.cachedLen by rw [hcore]
  have hmax : r₀.maxDeviceLen = r.maxDeviceLen := show r₀.core.maxDeviceLen = r.core.maxDeviceLen by rw [hcore]
  have hr₀ := hr.of_core _ hcore
  have hpos := turnReq_length hr
  have hcommit := commit_eq r₀ st (scripted (greedyConfig cfg next msg) msg k (a + 1))
    (by rw [hids]; omega) (by omega)
  rw [hlen, hcount] at hcommit
  rw [hcommit, Option.map_some]
  have hadopted : TurnReq (greedyConfig cfg next msg) msg
      { r₀ with
        inputIds := r₀.inputIds ++ scripted (greedyConfig cfg next msg) msg k (a + 1)
        cachedLen := r.cachedLen + (a + 1)
        deviceLen := r.cachedLen + (a + 1) + 1 } (k + (a + 1)) := by
    refine ⟨hr₀.uid, hr₀.sampling, hr₀.whole, hr₀.outputLen, hr₀.span, ?_⟩
    show r₀.inputIds ++ _ = _
    rw [hr₀.tokens, tokensAfter_add]
  have hlong : (r₀.inputIds ++ scripted (greedyConfig cfg next msg) msg k (a + 1)).length =
      r.cachedLen + (a + 1) + 1 := by
    rw [List.length_append, hids, hcount]
    omega
  have hroom : (r₀.inputIds ++ scripted (greedyConfig cfg next msg) msg k (a + 1)).length ≤
      r₀.maxDeviceLen := by omega
  have htoks : ({ st with
      tokens := st.tokens ++ scripted (greedyConfig cfg next msg) msg k (a + 1) } :
        SpecState).tokens = r₀.inputIds ++ scripted (greedyConfig cfg next msg) msg k (a + 1) := by
    show st.tokens ++ _ = _
    rw [htokens, hids]
  have hbefore : r.cachedLen + 1 = msg.inputIds.length + k := by omega
  obtain ⟨hserves, htable⟩ := finish_serves hadopted hk hlong.symm hlong.symm hroom htoks hbefore
  refine ⟨_, rfl, ⟨⟨hserves.settled.cached, hserves.settled.device, hserves.settled.within, ?_⟩,
    hserves.delivered⟩, fun h => (htable h).trans ?_⟩
  · exact (learn_tokens _ _ _).trans hserves.settled.drafter
  · show r₀.core.tableIdx = r.core.tableIdx
    rw [hcore]

end FreeToken.Speculation
