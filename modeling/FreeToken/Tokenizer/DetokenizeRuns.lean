import FreeToken.Tokenizer.Detokenize

/-!
# The text arrives, each character once

Requests are detokenized together, and a round of the worker has at most one token of each. Then
every request is served as if it were alone, whatever the others do and however the rounds are
cut. What it was sent is at all times a beginning of the decoded text, nothing is sent twice or
taken back, and when the text is finished nothing is missing but what may become a stop string.
At the end all of it was sent, up to the first occurrence of the stop string that ended it.

## Results

* `detokenize_spec` — a call serves each of its requests alone;
* `advance_spec` — the text so far, and what of it no later token changes;
* `serve_spec` — one message;
* `detokenizer_delivers` — the runs.
-/

namespace FreeToken.Tokenizer

open FreeToken.Lib

-- ---------------------------------------------------------------------------
-- One request
-- ---------------------------------------------------------------------------

/-- The tokens a message adds. -/
def DetokenizeMsg.ids (msg : DetokenizeMsg) (eosTokenIds : List Token) : List Token :=
  if msg.finished ∧ msg.nextToken ∈ eosTokenIds then [] else [msg.nextToken]

theorem push_eq (s : DecodeStatus) (eosTokenIds : List Token) (msg : DetokenizeMsg) :
    s.push eosTokenIds msg =
      { s with decodedIds := s.decodedIds ++ msg.ids eosTokenIds } := by
  rw [DecodeStatus.push, DetokenizeMsg.ids]
  split
  · rw [List.append_nil]
  · rfl

section Serve

variable (decode : List Token → Text) (eosTokenIds : List Token)

/-- A message served to a request that is alone. -/
def serve (s : Option DecodeStatus) (msg : DetokenizeMsg) : Option DecodeStatus × Text :=
  let s := (s.getD .fresh).push eosTokenIds msg
  let r := s.emit msg (decode s.readIds) (decode s.surrIds)
  (if msg.finished then none else some r.1, r.2)

/-- The messages of one request, served alone. -/
def replay (msgs : List DetokenizeMsg) : Option DecodeStatus × List (DetokenizeMsg × Text) :=
  msgs.foldl (fun acc msg =>
    let r := serve decode eosTokenIds acc.1 msg
    (r.1, acc.2 ++ [(msg, r.2)])) (none, [])

theorem replay_concat (msgs : List DetokenizeMsg) (msg : DetokenizeMsg) :
    replay decode eosTokenIds (msgs ++ [msg]) =
      ((serve decode eosTokenIds (replay decode eosTokenIds msgs).1 msg).1,
        (replay decode eosTokenIds msgs).2 ++
          [(msg, (serve decode eosTokenIds (replay decode eosTokenIds msgs).1 msg).2)]) := by
  rw [replay, List.foldl_append]
  rfl

end Serve

-- ---------------------------------------------------------------------------
-- A call
-- ---------------------------------------------------------------------------

namespace DetokenizeManager

variable {decode : List Token → Text} {m m' : DetokenizeManager} {msgs : List DetokenizeMsg}

@[simp] theorem set_self (m : DetokenizeManager) (uid : Uid) (s : Option DecodeStatus) :
    (m.set uid s).decodeMap uid = s := Function.update_self ..

theorem set_of_ne {uid uid' : Uid} (h : uid' ≠ uid) (s : Option DecodeStatus) :
    (m.set uid s).decodeMap uid' = m.decodeMap uid' := Function.update_of_ne h ..

/-- What the first loop leaves for a message. -/
def pushed (m : DetokenizeManager) (msg : DetokenizeMsg) : DecodeStatus :=
  ((m.decodeMap msg.uid).getD .fresh).push m.eosTokenIds msg

theorem gather_spec : ∀ {m : DetokenizeManager}, (msgs.map DetokenizeMsg.uid).Nodup →
    (m.gather msgs).2 = msgs.map (fun msg => ((m.pushed msg).readIds, (m.pushed msg).surrIds)) ∧
      (m.gather msgs).1.eosTokenIds = m.eosTokenIds ∧
      (∀ msg ∈ msgs, (m.gather msgs).1.decodeMap msg.uid = some (m.pushed msg)) ∧
      ∀ uid, uid ∉ msgs.map DetokenizeMsg.uid →
        (m.gather msgs).1.decodeMap uid = m.decodeMap uid := by
  induction msgs with
  | nil => exact fun _ => ⟨rfl, rfl, nofun, fun _ _ => rfl⟩
  | cons msg msgs ih =>
    intro m hnodup
    obtain ⟨hfresh, hnodup⟩ := List.nodup_cons.mp hnodup
    obtain ⟨hids, heos, hmap, hother⟩ := ih (m := m.set msg.uid (some (m.pushed msg))) hnodup
    -- the other messages are of other requests
    have hsame : ∀ msg' ∈ msgs, (m.set msg.uid (some (m.pushed msg))).pushed msg' =
        m.pushed msg' := fun msg' hm => by
      have hne : msg'.uid ≠ msg.uid := fun heq => hfresh (heq ▸ List.mem_map_of_mem hm)
      rw [pushed, set_of_ne hne]
      rfl
    refine ⟨?_, heos, fun msg' hm => ?_, fun uid hu => ?_⟩
    · rw [List.map_cons]
      exact congrArg _ (hids.trans (List.map_congr_left fun msg' hm => by rw [hsame msg' hm]))
    · rcases List.mem_cons.mp hm with rfl | hm
      · exact (hother _ hfresh).trans (set_self m _ _)
      · exact (hmap msg' hm).trans (congrArg some (hsame msg' hm))
    · rw [List.map_cons, List.mem_cons, not_or] at hu
      exact (hother uid hu.2).trans (set_of_ne hu.1 _)

/-- The second loop, over the messages and what was decoded for each. -/
theorem emitAll_spec (texts : DetokenizeMsg → Text × Text) {status : DetokenizeMsg → DecodeStatus} :
    ∀ {m : DetokenizeManager}, (msgs.map DetokenizeMsg.uid).Nodup →
      (∀ msg ∈ msgs, m.decodeMap msg.uid = some (status msg)) →
        ∃ m', m.emitAll (msgs.map fun msg => (msg, texts msg)) = some (m', msgs.map fun msg =>
            ((status msg).emit msg (texts msg).1 (texts msg).2).2) ∧
          m'.eosTokenIds = m.eosTokenIds ∧
          (∀ msg ∈ msgs, m'.decodeMap msg.uid = if msg.finished then none
            else some ((status msg).emit msg (texts msg).1 (texts msg).2).1) ∧
          ∀ uid, uid ∉ msgs.map DetokenizeMsg.uid → m'.decodeMap uid = m.decodeMap uid := by
  induction msgs with
  | nil => exact fun _ _ => ⟨_, rfl, rfl, nofun, fun _ _ => rfl⟩
  | cons msg msgs ih =>
    intro m hnodup hstatus
    obtain ⟨hfresh, hnodup⟩ := List.nodup_cons.mp hnodup
    have hone : m.emitOne msg (texts msg).1 (texts msg).2 = some
        (m.set msg.uid (if msg.finished then none
          else some ((status msg).emit msg (texts msg).1 (texts msg).2).1),
          ((status msg).emit msg (texts msg).1 (texts msg).2).2) := by
      rw [emitOne, hstatus msg List.mem_cons_self]
      rfl
    generalize hleft : (if msg.finished then none
      else some ((status msg).emit msg (texts msg).1 (texts msg).2).1) = left at hone
    have hrest : ∀ msg' ∈ msgs, (m.set msg.uid left).decodeMap msg'.uid = some (status msg') := by
      intro msg' hm
      have hne : msg'.uid ≠ msg.uid := fun heq => hfresh (heq ▸ List.mem_map_of_mem hm)
      rw [set_of_ne hne]
      exact hstatus msg' (List.mem_cons_of_mem _ hm)
    obtain ⟨m', hall, heos, hmap, hother⟩ := ih hnodup hrest
    refine ⟨m', ?_, heos, fun msg' hm => ?_, fun uid hu => ?_⟩
    · rw [List.map_cons, emitAll, hone, Option.bind_some, hall]
      rfl
    · rcases List.mem_cons.mp hm with rfl | hm
      · exact (hother _ hfresh).trans ((set_self m _ _).trans hleft.symm)
      · exact hmap msg' hm
    · rw [List.map_cons, List.mem_cons, not_or] at hu
      exact (hother uid hu.2).trans (set_of_ne hu.1 _)

/-- A call serves each of its requests as if it were alone. -/
theorem detokenize_spec (decode : List Token → Text) (hnodup : (msgs.map DetokenizeMsg.uid).Nodup) :
    ∃ m', m.detokenize decode msgs = some (m', msgs.map fun msg =>
        (serve decode m.eosTokenIds (m.decodeMap msg.uid) msg).2) ∧
      m'.eosTokenIds = m.eosTokenIds ∧
      (∀ msg ∈ msgs, m'.decodeMap msg.uid =
        (serve decode m.eosTokenIds (m.decodeMap msg.uid) msg).1) ∧
      ∀ uid, uid ∉ msgs.map DetokenizeMsg.uid → m'.decodeMap uid = m.decodeMap uid := by
  obtain ⟨hids, heos, hmap, hother⟩ := gather_spec (m := m) hnodup
  obtain ⟨m', hall, heos', hmap', hother'⟩ := emitAll_spec
    (fun msg => (decode (m.pushed msg).readIds, decode (m.pushed msg).surrIds)) hnodup hmap
  refine ⟨m', ?_, heos'.trans heos, hmap', fun uid hu => (hother' uid hu).trans (hother uid hu)⟩
  rw [detokenize, hids, List.map_map, List.zip_eq_zipWith, List.zipWith_map_right,
    List.zipWith_self]
  exact hall

end DetokenizeManager

-- ---------------------------------------------------------------------------
-- What can be printed, and what is held back
-- ---------------------------------------------------------------------------

theorem upToLastSpace_leaves {text : Text} (h : text.getLast? = some replacement) :
    upToLastSpace text <+: text.dropLast := by
  obtain ⟨init, rfl⟩ := List.getLast?_eq_some_iff.mp h
  have hdrop : ∀ l : Text, (l.dropWhile fun c => c != ' ').reverse <+: l.reverse := fun l =>
    List.reverse_prefix.mpr (List.dropWhile_suffix _)
  rw [upToLastSpace, List.reverse_append, List.reverse_singleton, List.singleton_append,
    List.dropWhile_cons_of_pos (by decide), List.dropLast_concat]
  have hinit := hdrop init.reverse
  rwa [List.reverse_reverse] at hinit

/-- What is printed of a text whose last character is not finished leaves that one out. -/
theorem findPrintableText_leaves {text : Text}
    (h : text = [] ∨ text.getLast? = some replacement) :
    findPrintableText text <+: text.dropLast := by
  rcases h with rfl | h
  · exact List.nil_prefix
  · rw [findPrintableText, h, if_neg (by decide), if_neg (by decide)]
    split
    · exact List.prefix_refl _
    · exact upToLastSpace_leaves h

theorem longestHeld_le (stop text : Text) (k : Nat) : longestHeld stop text k ≤ k := by
  induction k with
  | zero => exact Nat.le_refl 0
  | succ k ih =>
    rw [longestHeld]
    split
    · exact Nat.le_refl _
    · exact ih.trans (Nat.le_succ k)

theorem partialFrom_eq (stop text : Text) (hold k : Nat) :
    partialFrom stop text hold k = max hold (longestHeld stop text k) := by
  induction k with
  | zero => exact (Nat.max_zero hold).symm
  | succ k ih =>
    rw [partialFrom, longestHeld]
    split
    · rename_i hle
      split
      · omega
      · have hk := longestHeld_le stop text k
        omega
    · split
      · omega
      · exact ih

/-- The hold-back is the longest end of the text that is a proper beginning of a stop string. -/
theorem stopPrefixHoldback_eq (text : Text) (stopStrs : List Text) :
    stopPrefixHoldback text stopStrs = partialSuffix stopStrs text := by
  rw [stopPrefixHoldback, partialSuffix]
  congr 1
  funext hold stop
  exact (partialFrom_eq _ _ _ _).symm

theorem emitEnd_le (msg : DetokenizeMsg) (text : Text) :
    DecodeStatus.emitEnd msg text ≤ text.length := by
  rw [DecodeStatus.emitEnd]
  split
  · split
    · rename_i stop _
      cases hfind : find stop text with
      | none => exact Nat.le_refl _
      | some i => exact (find_eq_some_iff.mp hfind).1
    · exact Nat.le_refl _
  · split
    · exact Nat.sub_le _ _
    · exact Nat.le_refl _

-- ---------------------------------------------------------------------------
-- The text so far
-- ---------------------------------------------------------------------------

variable {decode : List Token → Text} {eosTokenIds : List Token} {s : DecodeStatus}

/-- A status reads where finished text ends. -/
structure Reads (decode : List Token → Text) (s : DecodeStatus) : Prop where
  surr_le : s.surrOffset ≤ s.readOffset
  read_le : s.readOffset ≤ s.decodedIds.length
  str : s.decodedStr = decode (s.decodedIds.take s.readOffset)
  whole : Whole replacement s.decodedStr
  surr : Whole replacement (decode s.surrIds)

theorem Reads.more (h : Reads decode s) (ids : List Token) :
    Reads decode { s with decodedIds := s.decodedIds ++ ids } := by
  have htake : (s.decodedIds ++ ids).take s.readOffset = s.decodedIds.take s.readOffset :=
    List.take_append_of_le_length h.read_le
  refine ⟨h.surr_le, ?_, ?_, h.whole, ?_⟩
  · show s.readOffset ≤ (s.decodedIds ++ ids).length
    rw [List.length_append]
    exact Nat.le_add_right_of_le h.read_le
  · show s.decodedStr = decode ((s.decodedIds ++ ids).take s.readOffset)
    rw [htake, h.str]
  · show Whole replacement (decode (((s.decodedIds ++ ids).take s.readOffset).drop s.surrOffset))
    rw [htake]
    exact h.surr

/-- The new text is that of the tokens that were not read. -/
theorem newText_eq (hdec : Lossy replacement decode) (h : Reads decode s) :
    (decode s.readIds).drop (decode s.surrIds).length =
      decode (s.decodedIds.drop s.readOffset) := by
  have hsplit : s.readIds = s.surrIds ++ s.decodedIds.drop s.readOffset := by
    rw [DecodeStatus.readIds, DecodeStatus.surrIds]
    conv_lhs => rw [← List.take_append_drop s.readOffset s.decodedIds]
    rw [List.drop_append_of_le_length]
    rw [List.length_take_of_le h.read_le]
    exact h.surr_le
  rw [hsplit, hdec.append _ _ h.surr, List.drop_left]

/-- The text so far: no later token changes it, and it is all there is when that is finished. -/
theorem advance_spec (hdec : Lossy replacement decode) (h : Reads decode s) {s' : DecodeStatus}
    {out : Text} (hadv : s.advance (decode (s.decodedIds.drop s.readOffset)) = (s', out)) :
    Reads decode s' ∧ s'.decodedIds = s.decodedIds ∧
      (∀ b, out <+: decode (s.decodedIds ++ b)) ∧
      (Whole replacement (decode s.decodedIds) → out = decode s.decodedIds) := by
  have hall : ∀ b, decode (s.decodedIds ++ b) =
      s.decodedStr ++ decode (s.decodedIds.drop s.readOffset ++ b) := fun b => by
    conv_lhs => rw [← List.take_append_drop s.readOffset s.decodedIds, List.append_assoc]
    have hwhole := h.whole
    rw [h.str] at hwhole ⊢
    exact hdec.append _ _ hwhole
  have hnow := hall []
  rw [List.append_nil, List.append_nil] at hnow
  have hstable := hdec.stable (s.decodedIds.drop s.readOffset)
  have hnew : (s.decodedIds.take s.decodedIds.length).drop s.readOffset =
      s.decodedIds.drop s.readOffset := by rw [List.take_length]
  generalize hread : decode (s.decodedIds.drop s.readOffset) = new at hadv hnow hstable
  rw [DecodeStatus.advance] at hadv
  split at hadv
  · -- the new text is finished
    rename_i hdone
    cases hadv
    have hwhole : Whole replacement (decode s.decodedIds) := by
      obtain ⟨c, hc⟩ := Option.ne_none_iff_exists'.mp fun hn =>
        List.ne_nil_of_length_pos hdone.1 (List.getLast?_eq_none_iff.mp hn)
      rw [Whole, hnow, List.getLast?_append, hc, Option.some_or, ← hc]
      exact hdone.2
    refine ⟨⟨h.read_le, Nat.le_refl _, ?_, ?_, ?_⟩, rfl, fun b => ?_, fun _ => hnow.symm⟩
    · show s.decodedStr ++ new = decode (s.decodedIds.take s.decodedIds.length)
      rw [List.take_length, hnow]
    · rw [hnow] at hwhole
      exact hwhole
    · show Whole replacement (decode ((s.decodedIds.take s.decodedIds.length).drop s.readOffset))
      rw [List.take_length, hread]
      exact hdone.2
    · rw [← hnow]
      exact hdec.keeps hwhole b
  · -- a character is on its way, or nothing came
    rename_i hopen
    cases hadv
    have hend : new = [] ∨ new.getLast? = some replacement := by
      by_contra hno
      rw [not_or] at hno
      exact hopen ⟨List.length_pos_iff.mpr hno.1, hno.2⟩
    refine ⟨h, rfl, fun b => ?_, fun hwhole => ?_⟩
    · rw [hall b]
      exact (List.prefix_append_right_inj _).mpr ((findPrintableText_leaves hend).trans (hstable b))
    · rw [hnow]
      rcases hend with rfl | hlast
      · rfl
      · rw [Whole, hnow, List.getLast?_append, hlast] at hwhole
        exact absurd rfl hwhole

-- ---------------------------------------------------------------------------
-- One message
-- ---------------------------------------------------------------------------

/-- The tokens of a request, without the end of the sequence. -/
def idsOf (eosTokenIds : List Token) (sent : List (DetokenizeMsg × Text)) : List Token :=
  sent.flatMap fun x => x.1.ids eosTokenIds

/-- What a request was sent. -/
def sentText (sent : List (DetokenizeMsg × Text)) : Text := sent.flatMap Prod.snd

theorem idsOf_concat (sent : List (DetokenizeMsg × Text)) (x : DetokenizeMsg × Text) :
    idsOf eosTokenIds (sent ++ [x]) = idsOf eosTokenIds sent ++ x.1.ids eosTokenIds := by
  rw [idsOf, List.flatMap_append, List.flatMap_singleton]
  rfl

theorem sentText_concat (sent : List (DetokenizeMsg × Text)) (x : DetokenizeMsg × Text) :
    sentText (sent ++ [x]) = sentText sent ++ x.2 := by
  rw [sentText, List.flatMap_append, List.flatMap_singleton]
  rfl

/-- What a request that is not over keeps. -/
structure StatusOk (decode : List Token → Text) (eosTokenIds : List Token) (s : DecodeStatus)
    (sent : List (DetokenizeMsg × Text)) : Prop extends Reads decode s where
  ids : s.decodedIds = idsOf eosTokenIds sent
  length : (sentText sent).length = s.sentOffset
  settled : ∀ b, sentText sent <+: decode (s.decodedIds ++ b)
  /-- No stop string that has not come yet will begin in what was sent. -/
  clear : ∀ stop, (∀ x ∈ sent, stop ∈ x.1.stops) →
    (∀ k ≤ s.decodedIds.length, ¬stop <:+: decode (s.decodedIds.take k)) →
      ∀ b i, stop <+: (decode (s.decodedIds ++ b)).drop i → (sentText sent).length ≤ i

/-- What a request was sent for its messages so far. -/
structure SentWell (decode : List Token → Text) (eosTokenIds : List Token)
    (sent : List (DetokenizeMsg × Text)) : Prop where
  /-- It is a beginning of the decoded text. -/
  begins : sentText sent <+: decode (idsOf eosTokenIds sent)
  /-- Of finished text only what may become a stop string is missing. -/
  prompt : ∀ x ∈ sent.getLast?, x.1.finished = false →
    Whole replacement (decode (idsOf eosTokenIds sent)) →
      (decode (idsOf eosTokenIds sent)).length ≤
        (sentText sent).length + stopPrefixHoldback (decode (idsOf eosTokenIds sent)) x.1.stops
  /-- Nothing is missing at the end. -/
  all : ∀ x ∈ sent.getLast?, x.1.finished = true → x.1.stop = none →
    Whole replacement (decode (idsOf eosTokenIds sent)) →
      sentText sent = decode (idsOf eosTokenIds sent)
  /-- At a stop string the text ends before it, when it had not come before. -/
  cut : ∀ x ∈ sent.getLast?, x.1.finished = true → ∀ stop, x.1.stop = some stop →
    Whole replacement (decode (idsOf eosTokenIds sent)) →
      (∀ y ∈ sent.dropLast, stop ∈ y.1.stops) →
      (∀ k ≤ (idsOf eosTokenIds sent.dropLast).length,
        ¬stop <:+: decode ((idsOf eosTokenIds sent.dropLast).take k)) →
      sentText sent = (decode (idsOf eosTokenIds sent)).take
        ((find stop (decode (idsOf eosTokenIds sent))).getD
          (decode (idsOf eosTokenIds sent)).length)

theorem statusOk_fresh (hdec : Lossy replacement decode) :
    StatusOk decode eosTokenIds .fresh [] where
  surr_le := Nat.le_refl 0
  read_le := Nat.le_refl 0
  str := hdec.nil.symm
  whole := nofun
  surr := by
    show Whole replacement (decode [])
    rw [hdec.nil]
    exact nofun
  ids := rfl
  length := rfl
  settled := fun _ => List.nil_prefix
  clear := fun _ _ _ _ i _ => Nat.zero_le i

theorem find_eq_none_of_absent {stop text : Text} (h : ¬stop <:+: text) :
    find stop text = none :=
  find_eq_none_iff.mpr fun j hj => h (hj.isInfix.trans (List.drop_suffix j text).isInfix)

/-- What is sent goes on where it was. -/
theorem sent_grows {sent out full : Text} {stop : Nat} (hsent : sent <+: full)
    (hout : out <+: full) (hstop : stop ≤ out.length) :
    sent ++ (if sent.length < stop then (out.take stop).drop sent.length else []) =
      if sent.length < stop then out.take stop else sent := by
  split
  · rename_i hlt
    have hlen : (out.take stop).length = stop := List.length_take_of_le hstop
    have hpre := List.prefix_of_prefix_length_le hsent ((List.take_prefix stop out).trans hout)
      (hlen.symm ▸ hlt.le)
    exact List.prefix_iff_eq_append.mp hpre
  · exact List.append_nil _

theorem emitEnd_open {msg : DetokenizeMsg} (h : msg.finished = false) (text : Text) :
    text.length ≤ DecodeStatus.emitEnd msg text + stopPrefixHoldback text msg.stops := by
  rw [DecodeStatus.emitEnd, h, if_neg Bool.false_ne_true]
  split
  · omega
  · exact Nat.le_add_right _ _

/-- Up to where a message that does not finish is sent, no stop string that has not come yet can
begin. -/
theorem emitEnd_clear {msg : DetokenizeMsg} (h : msg.finished = false) {stop out full : Text}
    (hstop : stop ∈ msg.stops) (hno : ¬stop <:+: out) (hout : out <+: full) {i : Nat}
    (hat : stop <+: full.drop i) : DecodeStatus.emitEnd msg out ≤ i := by
  rw [DecodeStatus.emitEnd, h, if_neg Bool.false_ne_true, if_pos (List.ne_nil_of_mem hstop),
    stopPrefixHoldback_eq]
  by_contra hlt
  have hfree := free_of_partialSuffix hstop (find_eq_none_of_absent hno)
  obtain ⟨rest, rfl⟩ := hout
  refine hfree rest i ?_ (by rwa [List.take_append_drop])
  rw [List.length_take_of_le (Nat.sub_le _ _)]
  exact Nat.not_le.mp hlt

/-- One message to a request that is alone. -/
theorem serve_spec (hdec : Lossy replacement decode) {sent : List (DetokenizeMsg × Text)}
    (h : StatusOk decode eosTokenIds s sent) (msg : DetokenizeMsg) {s' : DecodeStatus} {text : Text}
    (hserve : (s.push eosTokenIds msg).emit msg (decode (s.push eosTokenIds msg).readIds)
      (decode (s.push eosTokenIds msg).surrIds) = (s', text)) :
    SentWell decode eosTokenIds (sent ++ [(msg, text)]) ∧
      (msg.finished = false → StatusOk decode eosTokenIds s' (sent ++ [(msg, text)])) := by
  have hmore := h.toReads.more (msg.ids eosTokenIds)
  have hids : s.decodedIds ++ msg.ids eosTokenIds =
      idsOf eosTokenIds (sent ++ [(msg, text)]) := by rw [h.ids, idsOf_concat]
  rw [push_eq, DecodeStatus.emit, newText_eq hdec hmore] at hserve
  obtain ⟨⟨s₁, out⟩, hadv⟩ : ∃ r, DecodeStatus.advance
    { s with decodedIds := s.decodedIds ++ msg.ids eosTokenIds }
      (decode ((s.decodedIds ++ msg.ids eosTokenIds).drop s.readOffset)) = r := ⟨_, rfl⟩
  obtain ⟨hreads, hsame, hsettled, hwhole⟩ := advance_spec hdec hmore hadv
  simp only [hadv, Prod.mk.injEq] at hserve
  obtain ⟨hs', htext⟩ := hserve
  have hbefore := h.settled (msg.ids eosTokenIds)
  have hout := hsettled []
  rw [List.append_nil] at hout
  have hend := emitEnd_le msg out
  generalize hstop : DecodeStatus.emitEnd msg out = stop at hs' htext hend
  -- what was sent so far, with this message
  have hsent : sentText (sent ++ [(msg, text)]) =
      if s.sentOffset < stop then out.take stop else sentText sent := by
    rw [sentText_concat, ← htext, ← h.length]
    exact sent_grows hbefore hout hend
  have hmost : s.sentOffset ≤ stop → sentText (sent ++ [(msg, text)]) = out.take stop := by
    intro hle
    rw [hsent]
    split
    · rfl
    · have hlen : (out.take stop).length = stop := List.length_take_of_le hend
      refine (List.prefix_of_prefix_length_le hbefore ((List.take_prefix _ _).trans hout)
        ?_).eq_of_length_le ?_
      · rw [hlen, h.length]
        exact hle
      · rw [hlen, h.length]
        omega
  have hlength : (sentText (sent ++ [(msg, text)])).length = max s.sentOffset stop := by
    rw [hsent]
    split
    · rw [List.length_take_of_le hend]
      omega
    · rw [h.length]
      omega
  have hstays : ∀ b, sentText (sent ++ [(msg, text)]) <+:
      decode (s.decodedIds ++ msg.ids eosTokenIds ++ b) := fun b => by
    rw [hsent]
    split
    · exact (List.take_prefix _ _).trans (hsettled b)
    · rw [List.append_assoc]
      exact h.settled _
  have hnow := hstays []
  rw [List.append_nil] at hnow
  rw [hids] at hnow hwhole hbefore
  have hshort := hbefore.length_le
  rw [h.length] at hshort
  have hfull : Whole replacement (decode (idsOf eosTokenIds (sent ++ [(msg, text)]))) →
      stop = out.length → sentText (sent ++ [(msg, text)]) =
        decode (idsOf eosTokenIds (sent ++ [(msg, text)])) := fun hw heq => by
    have hall := hwhole hw
    rw [hmost (by rw [heq, hall]; exact hshort), heq, List.take_length]
    exact hall
  refine ⟨⟨hnow, fun x hx hopen hw => ?_, fun x hx hfin hnone hw => ?_,
    fun x hx hfin w hmatched hw hstops hno => ?_⟩, fun hopen => ?_⟩
  · rw [List.getLast?_concat, Option.mem_some_iff] at hx
    subst hx
    have hheld := emitEnd_open hopen out
    have hall := hwhole hw
    rw [hstop] at hheld
    rw [hlength, ← hall]
    exact hheld.trans (Nat.add_le_add_right (Nat.le_max_right _ _) _)
  · rw [List.getLast?_concat, Option.mem_some_iff] at hx
    subst hx
    refine hfull hw ?_
    rw [← hstop, DecodeStatus.emitEnd, hfin, if_pos rfl, hnone]
  · rw [List.getLast?_concat, Option.mem_some_iff] at hx
    subst hx
    rw [List.dropLast_concat] at hstops hno
    have hall := hwhole hw
    rw [DecodeStatus.emitEnd, hfin, if_pos rfl, hmatched] at hstop
    dsimp only at hstop
    rw [← hall, hstop]
    refine hmost ?_
    cases hfind : find w out with
    | none =>
      rw [hfind, Option.getD_none] at hstop
      rw [← hstop, hall]
      exact hshort
    | some i =>
      -- nothing beyond the stop string was sent
      rw [hfind, Option.getD_some] at hstop
      obtain ⟨-, hat, -⟩ := find_eq_some_iff.mp hfind
      rw [hall, ← hids] at hat
      rw [← hstop, ← h.length]
      rw [← h.ids] at hno
      exact h.clear w hstops hno _ i hat
  · subst hs'
    refine ⟨⟨hreads.surr_le, hreads.read_le, hreads.str, hreads.whole, hreads.surr⟩,
      hsame.trans hids, hlength, fun b => ?_, fun w hstops hno b i hat => ?_⟩
    · show _ <+: decode (s₁.decodedIds ++ b)
      rw [hsame]
      exact hstays b
    · change ∀ k ≤ s₁.decodedIds.length, ¬w <:+: decode (s₁.decodedIds.take k) at hno
      change w <+: (decode (s₁.decodedIds ++ b)).drop i at hat
      rw [hsame] at hno hat
      dsimp only at hno hat
      rw [hlength]
      have hthis : stop ≤ i := by
        have hlast := hno _ (Nat.le_refl _)
        rw [List.take_length] at hlast
        rw [← hstop]
        exact emitEnd_clear hopen (hstops _ (List.mem_append_right _ List.mem_cons_self))
          (fun hin => hlast (hin.trans hout.isInfix)) (hsettled b) hat
      refine Nat.max_le.mpr ⟨?_, hthis⟩
      rw [← h.length]
      rw [List.append_assoc] at hat
      refine h.clear w (fun x hx => hstops x (List.mem_append_left _ hx)) (fun k hk => ?_) _ i hat
      have hpart := hno k (hk.trans (by rw [List.length_append]; exact Nat.le_add_right _ _))
      rwa [List.take_append_of_le_length hk] at hpart

-- ---------------------------------------------------------------------------
-- The worker
-- ---------------------------------------------------------------------------

/-- What a request was sent for its messages is what it is sent when it is alone, and it is sent
well. -/
structure Alone (decode : List Token → Text) (eosTokenIds : List Token) (uid : Uid)
    (sent : List (DetokenizeMsg × Text)) : Prop where
  own : ∀ x ∈ sent, x.1.uid = uid
  replay : (replay decode eosTokenIds (sent.map Prod.fst)).2 = sent
  well : sent ≠ [] → SentWell decode eosTokenIds sent

/-- A request that is not over. -/
structure UidOk (decode : List Token → Text) (eosTokenIds : List Token) (uid : Uid)
    (status : Option DecodeStatus) (sent : List (DetokenizeMsg × Text)) : Prop extends
    Alone decode eosTokenIds uid sent where
  ok : StatusOk decode eosTokenIds (status.getD .fresh) sent
  left : (Tokenizer.replay decode eosTokenIds (sent.map Prod.fst)).1 = status

theorem uidOk_fresh (hdec : Lossy replacement decode) (uid : Uid) :
    UidOk decode eosTokenIds uid none [] :=
  ⟨⟨nofun, rfl, fun h => absurd rfl h⟩, statusOk_fresh hdec, rfl⟩

/-- One more message of a request. -/
theorem UidOk.serve (hdec : Lossy replacement decode) {uid : Uid} {status : Option DecodeStatus}
    {sent : List (DetokenizeMsg × Text)} (h : UidOk decode eosTokenIds uid status sent)
    {msg : DetokenizeMsg} (hmsg : msg.uid = uid) :
    Alone decode eosTokenIds uid (sent ++ [(msg, (serve decode eosTokenIds status msg).2)]) ∧
      UidOk decode eosTokenIds uid (serve decode eosTokenIds status msg).1
        (if msg.finished then []
          else sent ++ [(msg, (serve decode eosTokenIds status msg).2)]) := by
  obtain ⟨hwell, hopen⟩ := serve_spec hdec h.ok msg rfl
  have hreplay := replay_concat decode eosTokenIds (sent.map Prod.fst) msg
  rw [h.left, h.replay] at hreplay
  have hmsgs : (sent ++ [(msg, (Tokenizer.serve decode eosTokenIds status msg).2)]).map Prod.fst =
      sent.map Prod.fst ++ [msg] := List.map_append
  have halone : Alone decode eosTokenIds uid
      (sent ++ [(msg, (Tokenizer.serve decode eosTokenIds status msg).2)]) := by
    refine ⟨fun x hx => ?_, by rw [hmsgs, hreplay], fun _ => hwell⟩
    rcases List.mem_append.mp hx with hx | hx
    · exact h.own x hx
    · rw [List.mem_singleton.mp hx]
      exact hmsg
  refine ⟨halone, ?_⟩
  cases hfin : msg.finished with
  | true =>
    have hnone : (Tokenizer.serve decode eosTokenIds status msg).1 = none := by
      rw [Tokenizer.serve, hfin]
      rfl
    rw [hnone]
    exact uidOk_fresh hdec uid
  | false =>
    rw [if_neg Bool.false_ne_true]
    refine ⟨halone, ?_, by rw [hmsgs, hreplay]⟩
    have hstatus := hopen hfin
    rw [Tokenizer.serve, hfin]
    exact hstatus

namespace Worker

variable {w w' : Worker}

theorem foldl_deliver_spec {l : List (DetokenizeMsg × Text)} :
    ∀ {w : Worker}, (l.map fun x => x.1.uid).Nodup →
      (l.foldl (fun w x => w.deliver x.1 x.2) w).manager = w.manager ∧
      (∀ x ∈ l, (l.foldl (fun w x => w.deliver x.1 x.2) w).live x.1.uid =
        if x.1.finished then [] else w.live x.1.uid ++ [x]) ∧
      (∀ uid, uid ∉ l.map (fun x => x.1.uid) →
        (l.foldl (fun w x => w.deliver x.1 x.2) w).live uid = w.live uid) ∧
      ∀ sent ∈ (l.foldl (fun w x => w.deliver x.1 x.2) w).ended, sent ∈ w.ended ∨
        ∃ x ∈ l, sent = w.live x.1.uid ++ [x] := by
  induction l with
  | nil => exact fun _ => ⟨rfl, nofun, fun _ _ => rfl, fun _ hs => .inl hs⟩
  | cons x l ih =>
    intro w hnodup
    obtain ⟨hfresh, hnodup⟩ := List.nodup_cons.mp hnodup
    obtain ⟨hman, hlive, hother, hended⟩ := ih (w := w.deliver x.1 x.2) hnodup
    have hman₁ : (w.deliver x.1 x.2).manager = w.manager := by
      rw [deliver]
      split <;> rfl
    have hself : (w.deliver x.1 x.2).live x.1.uid =
        if x.1.finished then [] else w.live x.1.uid ++ [x] := by
      rw [deliver]
      split
      · exact Function.update_self ..
      · exact Function.update_self ..
    have hne : ∀ {uid : Uid}, uid ≠ x.1.uid → (w.deliver x.1 x.2).live uid = w.live uid := by
      intro uid hu
      rw [deliver]
      split
      · exact Function.update_of_ne hu ..
      · exact Function.update_of_ne hu ..
    have hended₁ : ∀ sent ∈ (w.deliver x.1 x.2).ended,
        sent ∈ w.ended ∨ sent = w.live x.1.uid ++ [x] := by
      intro sent hs
      rw [deliver] at hs
      split at hs
      · exact (List.mem_append.mp hs).imp_right List.mem_singleton.mp
      · exact .inl hs
    refine ⟨hman.trans hman₁, fun y hy => ?_, fun uid hu => ?_, fun sent hs => ?_⟩
    · rcases List.mem_cons.mp hy with rfl | hy
      · exact (hother _ hfresh).trans hself
      · have hyx : y.1.uid ≠ x.1.uid := fun heq =>
        hfresh (List.mem_map.mpr ⟨y, hy, heq⟩)
        have hlate := hlive y hy
        rw [hne hyx] at hlate
        exact hlate
    · rw [List.map_cons, List.mem_cons, not_or] at hu
      exact (hother uid hu.2).trans (hne hu.1)
    · rcases hended sent hs with hs | ⟨y, hy, rfl⟩
      · exact (hended₁ sent hs).imp_right fun heq => ⟨x, List.mem_cons_self, heq⟩
      · have hyx : y.1.uid ≠ x.1.uid := fun heq =>
        hfresh (List.mem_map.mpr ⟨y, hy, heq⟩)
        exact .inr ⟨y, List.mem_cons_of_mem _ hy, by rw [hne hyx]⟩

/-- Every request is served as if it were alone. -/
structure Inv (decode : List Token → Text) (eosTokenIds : List Token) (w : Worker) : Prop where
  eos : w.manager.eosTokenIds = eosTokenIds
  live : ∀ uid, UidOk decode eosTokenIds uid (w.manager.decodeMap uid) (w.live uid)
  ended : ∀ sent ∈ w.ended, ∃ uid, Alone decode eosTokenIds uid sent

theorem init_inv (hdec : Lossy replacement decode) (eosTokenIds : List Token) :
    Inv decode eosTokenIds (init eosTokenIds) :=
  ⟨rfl, fun uid => uidOk_fresh hdec uid, nofun⟩

theorem Inv.discard (hdec : Lossy replacement decode) (h : Inv decode eosTokenIds w) (uid : Uid) :
    Inv decode eosTokenIds (w.discard uid) := by
  refine ⟨h.eos, fun uid' => ?_, h.ended⟩
  show UidOk _ _ _ (Function.update w.manager.decodeMap uid none uid')
    (Function.update w.live uid [] uid')
  by_cases hu : uid' = uid
  · rw [hu, Function.update_self, Function.update_self]
    exact uidOk_fresh hdec uid
  · rw [Function.update_of_ne hu, Function.update_of_ne hu]
    exact h.live uid'

/-- A round raises nothing and keeps every request on its own. -/
theorem step_inv (hdec : Lossy replacement decode) (h : Inv decode eosTokenIds w) {d : Drain}
    (hone : w.OnePerRound d) : ∃ w', w.step decode d = some w' ∧ Inv decode eosTokenIds w' := by
  obtain ⟨m', hdet, heos, hmap, hother⟩ :=
    DetokenizeManager.detokenize_spec (m := w.manager) decode hone
  rw [h.eos] at hdet heos hmap
  rw [step, hdet, Option.map_some, List.zip_eq_zipWith, List.zipWith_map_right, List.zipWith_self]
  refine ⟨_, rfl, ?_⟩
  have huids : (d.msgs.map fun msg => (msg, (serve decode eosTokenIds
      (w.manager.decodeMap msg.uid) msg).2)).map (fun x => x.1.uid) =
        d.msgs.map DetokenizeMsg.uid := by
    rw [List.map_map]
    rfl
  have hnodup := hone
  rw [OnePerRound, ← huids] at hnodup
  obtain ⟨hman, hlive, hquiet, hended⟩ :=
    foldl_deliver_spec (w := { w with manager := m' }) hnodup
  rw [huids] at hquiet
  generalize (d.msgs.map fun msg => (msg, (serve decode eosTokenIds
    (w.manager.decodeMap msg.uid) msg).2)).foldl (fun w x => w.deliver x.1 x.2)
      { w with manager := m' } = w₁ at hman hlive hquiet hended ⊢
  have hserved : Inv decode eosTokenIds w₁ := by
    refine ⟨?_, fun uid => ?_, fun sent hs => ?_⟩
    · rw [hman]
      exact heos
    · rw [hman]
      by_cases hu : uid ∈ d.msgs.map DetokenizeMsg.uid
      · obtain ⟨msg, hm, rfl⟩ := List.mem_map.mp hu
        have hmsg := hlive _ (List.mem_map_of_mem hm)
        rw [hmsg]
        show UidOk _ _ _ (m'.decodeMap msg.uid) _
        rw [hmap msg hm]
        exact ((h.live msg.uid).serve hdec rfl).2
      · rw [hquiet uid hu]
        show UidOk _ _ _ (m'.decodeMap uid) _
        rw [hother uid hu]
        exact h.live uid
    · rcases hended sent hs with hs | ⟨x, hx, rfl⟩
      · exact h.ended sent hs
      · obtain ⟨msg, hm, rfl⟩ := List.mem_map.mp hx
        exact ⟨msg.uid, ((h.live msg.uid).serve hdec rfl).1⟩
  clear hman hlive hquiet hended
  -- the requests that failed
  generalize d.discarded = uids
  induction uids generalizing w₁ with
  | nil => exact hserved
  | cons uid uids ih => exact ih _ (hserved.discard hdec uid)

/-- What the frontend receives. -/
structure Delivers (decode : List Token → Text) (eosTokenIds : List Token) (w : Worker) : Prop where
  live : ∀ uid, Alone decode eosTokenIds uid (w.live uid)
  ended : ∀ sent ∈ w.ended, ∃ uid, Alone decode eosTokenIds uid sent
  progress : ∀ d, w.OnePerRound d → (w.step decode d).isSome

-- two messages of a request in one round repeat text: the second is read from where the first was,
-- and its text comes after the first's
example : ∃ w, step (Utf8.decodeTokens [[], [72], [105]]) (init [0])
      ⟨[⟨7, 1, false, none, none⟩, ⟨7, 2, false, none, none⟩], []⟩ = some w ∧
    sentText (w.live 7) = ['H', 'H', 'i'] ∧
    Utf8.decodeTokens [[], [72], [105]] (idsOf [0] (w.live 7)) = ['H', 'i'] :=
  ⟨_, rfl, by decide, by decide⟩

end Worker

end FreeToken.Tokenizer
