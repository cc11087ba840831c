import FreeToken.Scheduler.Drain

/-!
# What a client is promised

The stream a turn should deliver, said without the scheduler: token `i` is the
`i`-th token the model samples, and the turn ends at its output budget or at the
first EOS or stop-string token, whichever comes first.

* `turnLength`, `messageAt`, `expected` — the promised stream.
* `stream`                              — what the scheduler has sent so far.
* `detokenizeMsg_eq_messageAt`          — the drain's reply is the promised one
  when its length test looks at the right length.
* `tokensOf`                            — a request's rows in the undrained batches.
-/

namespace FreeToken.Scheduler

variable {C H ρ : Type} (cfg : Config)

-- ---------------------------------------------------------------------------
-- The promised stream
-- ---------------------------------------------------------------------------

/-- The token list of a turn once `k` tokens were sampled. -/
def tokensAfter (msg : UserMsg) (k : Nat) : List Token :=
  msg.inputIds ++ (List.range k).map (cfg.script msg.uid)

def eosAt (msg : UserMsg) (i : Nat) : Bool :=
  !msg.samplingParams.ignoreEos && decide (cfg.script msg.uid i ∈ cfg.eosTokenIds)

/-- The stop string that the `i`-th sampled token completes. -/
def stopStrAt (msg : UserMsg) (i : Nat) : Option Text :=
  if !eosAt cfg msg i && !msg.samplingParams.stopStrs.isEmpty then
    stopMatch cfg msg.samplingParams.stopStrs msg.inputIds.length (tokensAfter cfg msg (i + 1))
  else none

def stopsAt (msg : UserMsg) (i : Nat) : Bool :=
  eosAt cfg msg i || (stopStrAt cfg msg i).isSome

/-- The output budget, or the position of the first stopping token when it is smaller. -/
def turnLength (msg : UserMsg) : Nat :=
  min msg.samplingParams.maxTokens
    ((List.range msg.samplingParams.maxTokens).findIdx (stopsAt cfg msg) + 1)

def messageAt (msg : UserMsg) (i : Nat) : DetokenizeMsg where
  uid := msg.uid
  nextToken := cfg.script msg.uid i
  finished := decide (i + 1 = turnLength cfg msg)
  finishReason :=
    if i + 1 = turnLength cfg msg then some (if stopsAt cfg msg i then .stop else .length)
    else none
  matchedStop := stopStrAt cfg msg i

def expected (msg : UserMsg) : List DetokenizeMsg :=
  (List.range (turnLength cfg msg)).map (messageAt cfg msg)

/-- The token message a reply is for the client of `u`, if it is one. -/
def deliveredTo (u : Uid) : Reply → Option DetokenizeMsg
  | .detokenize m => if m.uid = u then some m else none
  | _ => none

/-- The messages sent to the client of `u` so far. -/
def stream (s : State C H ρ) (u : Uid) : List DetokenizeMsg :=
  s.outbox.filterMap (deliveredTo u)

theorem tokensAfter_succ (msg : UserMsg) (k : Nat) :
    tokensAfter cfg msg (k + 1) = tokensAfter cfg msg k ++ [cfg.script msg.uid k] := by
  rw [tokensAfter, tokensAfter, List.range_succ, List.map_append, List.append_assoc]
  rfl

theorem turnLength_le (msg : UserMsg) :
    turnLength cfg msg ≤ msg.samplingParams.maxTokens :=
  Nat.min_le_left _ _

theorem turnLength_pos {msg : UserMsg} (h : 0 < msg.samplingParams.maxTokens) :
    0 < turnLength cfg msg :=
  Nat.lt_min.mpr ⟨h, Nat.succ_pos _⟩

/-- A turn that has not ended before token `k` ends with it exactly when `k`
stops it or spends the budget. -/
theorem succ_eq_turnLength {msg : UserMsg} {k : Nat} (h : k < turnLength cfg msg) :
    k + 1 = turnLength cfg msg ↔
      stopsAt cfg msg k = true ∨ msg.samplingParams.maxTokens ≤ k + 1 := by
  have hmax : k < msg.samplingParams.maxTokens := Nat.lt_of_lt_of_le h (turnLength_le cfg msg)
  have hidx : k ≤ (List.range msg.samplingParams.maxTokens).findIdx (stopsAt cfg msg) :=
    Nat.le_of_lt_succ (Nat.lt_of_lt_of_le h (Nat.min_le_right _ _))
  constructor
  · intro heq
    by_cases hlast : msg.samplingParams.maxTokens ≤ k + 1
    · exact Or.inr hlast
    · left
      have hfound : (List.range msg.samplingParams.maxTokens).findIdx (stopsAt cfg msg) = k := by
        unfold turnLength at heq
        omega
      have hlt : (List.range msg.samplingParams.maxTokens).findIdx (stopsAt cfg msg) <
          (List.range msg.samplingParams.maxTokens).length := by
        rw [hfound, List.length_range]
        exact hmax
      have hget := List.findIdx_getElem (p := stopsAt cfg msg) (w := hlt)
      rw [List.getElem_range, hfound] at hget
      exact hget
  · rintro (hstop | hlast)
    · have hle : (List.range msg.samplingParams.maxTokens).findIdx (stopsAt cfg msg) ≤ k := by
        by_contra hgt
        have hnot := List.not_of_lt_findIdx (Nat.lt_of_not_le hgt)
        rw [List.getElem_range, hstop] at hnot
        cases hnot
      unfold turnLength
      omega
    · have := turnLength_le cfg msg
      omega

theorem expected_eq_of_succ {msg : UserMsg} {k : Nat} (h : k + 1 = turnLength cfg msg) :
    expected cfg msg = (List.range k).map (messageAt cfg msg) ++ [messageAt cfg msg k] := by
  rw [expected, ← h, List.range_succ, List.map_append]
  rfl

/-- What was delivered before the turn ended is a prefix of the promise. -/
theorem delivered_prefix {msg : UserMsg} {k : Nat} (h : k ≤ turnLength cfg msg) :
    (List.range k).map (messageAt cfg msg) <+: expected cfg msg := by
  obtain ⟨n, hn⟩ := Nat.exists_eq_add_of_le h
  rw [expected, hn, List.range_add, List.map_append]
  exact List.prefix_append _ _

-- ---------------------------------------------------------------------------
-- The request of a turn
-- ---------------------------------------------------------------------------

/-- `r` is the whole request of `msg` with `k` tokens appended to its host copy. -/
structure TurnReq (msg : UserMsg) (r : Req ρ) (k : Nat) : Prop where
  uid       : r.uid = msg.uid
  sampling  : r.samplingParams = msg.samplingParams
  whole     : r.isChunked = false
  outputLen : r.outputLen = msg.samplingParams.maxTokens
  span      : r.maxDeviceLen = msg.inputIds.length + msg.samplingParams.maxTokens
  tokens    : r.inputIds = tokensAfter cfg msg k

theorem TurnReq.of_core {msg : UserMsg} {r r' : Req ρ} {k : Nat} (h : TurnReq cfg msg r k)
    (hcore : r'.core = r.core) : TurnReq cfg msg r' k where
  uid := (congrArg Req.uid hcore).trans h.uid
  sampling := (congrArg Req.samplingParams hcore).trans h.sampling
  whole := (congrArg Req.isChunked hcore).trans h.whole
  outputLen := (congrArg Req.outputLen hcore).trans h.outputLen
  span := (congrArg Req.maxDeviceLen hcore).trans h.span
  tokens := (congrArg Req.inputIds hcore).trans h.tokens

theorem TurnReq.promptLen {msg : UserMsg} {r : Req ρ} {k : Nat} (h : TurnReq cfg msg r k) :
    r.promptLen = msg.inputIds.length := by
  rw [Req.promptLen, h.span, h.outputLen, Nat.add_sub_cancel]

theorem TurnReq.canDecode {msg : UserMsg} {r : Req ρ} {k m : Nat} (h : TurnReq cfg msg r k)
    (hlen : r.deviceLen = msg.inputIds.length + m) :
    r.canDecode = true ↔ m < msg.samplingParams.maxTokens := by
  rw [Req.canDecode, h.whole, Req.remainLen, h.span, hlen, Bool.not_false, Bool.true_and,
    decide_eq_true_iff]
  omega

theorem TurnReq.hitStop {msg : UserMsg} {r : Req ρ} {k : Nat} (h : TurnReq cfg msg r k) :
    hitEos cfg (r.appendHost (cfg.script msg.uid k)) (cfg.script msg.uid k) =
        eosAt cfg msg k ∧
      matchedStop cfg (r.appendHost (cfg.script msg.uid k)) (cfg.script msg.uid k) =
        stopStrAt cfg msg k := by
  have heos : hitEos cfg (r.appendHost (cfg.script msg.uid k)) (cfg.script msg.uid k) =
      eosAt cfg msg k := by
    show (!r.samplingParams.ignoreEos && _) = _
    rw [h.sampling]
    rfl
  refine ⟨heos, ?_⟩
  have htokens : r.inputIds ++ [cfg.script msg.uid k] = tokensAfter cfg msg (k + 1) := by
    rw [h.tokens, tokensAfter_succ]
  unfold matchedStop stopStrAt
  rw [heos]
  show (if !eosAt cfg msg k && !r.samplingParams.stopStrs.isEmpty then
    stopMatch cfg r.samplingParams.stopStrs r.promptLen (r.inputIds ++ [cfg.script msg.uid k])
    else none) = _
  rw [h.sampling, h.promptLen, htokens]

/-- The drain's reply to token `k` is the promised one when its length test,
which reads a length a later forward may have advanced, says what it should. -/
theorem detokenizeMsg_eq_messageAt {msg : UserMsg} {r : Req ρ} {k : Nat}
    (h : TurnReq cfg msg r k) (hk : k < turnLength cfg msg)
    (hearly : r.canDecode = false →
      stopsAt cfg msg k = true ∨ msg.samplingParams.maxTokens ≤ k + 1)
    (hlate : msg.samplingParams.maxTokens ≤ k + 1 → r.canDecode = false) :
    detokenizeMsg cfg (r.appendHost (cfg.script msg.uid k)) (cfg.script msg.uid k) =
      messageAt cfg msg k := by
  obtain ⟨heos, hmatched⟩ := h.hitStop
  have hstop : Scheduler.hitStop cfg (r.appendHost (cfg.script msg.uid k))
      (cfg.script msg.uid k) = stopsAt cfg msg k := by
    rw [Scheduler.hitStop, heos, hmatched]
    rfl
  have hfin : (!r.canDecode || stopsAt cfg msg k) = decide (k + 1 = turnLength cfg msg) := by
    rw [Bool.eq_iff_iff, decide_eq_true_iff, succ_eq_turnLength cfg hk, Bool.or_eq_true,
      Bool.not_eq_true']
    constructor
    · rintro (hcan | hs)
      · exact hearly hcan
      · exact Or.inl hs
    · rintro (hs | hlast)
      · exact Or.inr hs
      · exact Or.inl (hlate hlast)
  have hcan : (r.appendHost (cfg.script msg.uid k)).canDecode = r.canDecode := rfl
  unfold detokenizeMsg messageAt
  dsimp only
  rw [hstop, hcan, hfin, hmatched]
  refine congrArg₂ (fun u f => DetokenizeMsg.mk u _ _ f _) h.uid ?_
  by_cases hend : k + 1 = turnLength cfg msg
  · simp [hend]
  · simp [hend]

-- ---------------------------------------------------------------------------
-- A request's rows in the undrained batches
-- ---------------------------------------------------------------------------

/-- The tokens sampled for `r` in `rows`, oldest first. -/
def tokensOf (rows : List (ReqId × Token)) (r : ReqId) : List Token :=
  rows.filterMap fun row => if row.1 = r then some row.2 else none

theorem tokensOf_append (rows rows' : List (ReqId × Token)) (r : ReqId) :
    tokensOf (rows ++ rows') r = tokensOf rows r ++ tokensOf rows' r :=
  List.filterMap_append

theorem tokensOf_cons_self (row : ReqId × Token) (rows : List (ReqId × Token)) :
    tokensOf (row :: rows) row.1 = row.2 :: tokensOf rows row.1 := by
  simp [tokensOf]

theorem tokensOf_cons_of_ne {row : ReqId × Token} {r : ReqId} (h : r ≠ row.1)
    (rows : List (ReqId × Token)) : tokensOf (row :: rows) r = tokensOf rows r := by
  simp [tokensOf, h.symm]

theorem tokensOf_eq_nil {rows : List (ReqId × Token)} {r : ReqId}
    (h : r ∉ rows.map Prod.fst) : tokensOf rows r = [] := by
  rw [tokensOf, List.filterMap_eq_nil_iff]
  intro row hrow
  have hne : row.1 ≠ r := fun heq => h (heq ▸ List.mem_map_of_mem hrow)
  simp [hne]

/-- A forwarded batch has one row for each of its requests. -/
theorem tokensOf_map {rids : List ReqId} (hnd : rids.Nodup) (f : ReqId → Token) {r : ReqId}
    (hr : r ∈ rids) : tokensOf (rids.map fun rid => (rid, f rid)) r = [f r] := by
  induction rids with
  | nil => cases hr
  | cons rid rids ih =>
    obtain ⟨hnot, hnd⟩ := List.nodup_cons.mp hnd
    rcases List.mem_cons.mp hr with rfl | hr
    · have hnil : tokensOf (rids.map fun rid => (rid, f rid)) r = [] := by
        apply tokensOf_eq_nil
        rw [List.map_map]
        exact fun hm => hnot (by simpa using hm)
      rw [List.map_cons, tokensOf_cons_self, hnil]
    · have hne : r ≠ rid := fun heq => hnot (heq ▸ hr)
      rw [List.map_cons, tokensOf_cons_of_ne hne, ih hnd hr]

end FreeToken.Scheduler
