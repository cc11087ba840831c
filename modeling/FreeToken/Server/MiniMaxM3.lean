import FreeToken.Server.Types

/-!
# The MiniMax-M3 reasoning parser

`MiniMaxM3ReasoningParser` of `server/reasoning_parser.py`, and of its base what it streams with.
The one-shot parse is positional; the stream searches a buffer for the markers, piece by piece, and
holds back what may become one.

* `reasoning_run`: what a stream returns that is inside the reasoning.
* `opening_run`, `head_run`, `closer_run`: and that is in front of it.
* `matches_of_agrees`: the texts on which the stream reads what the one-shot parse does.
* `prose_mismatch`: a text on which it does not.
-/

namespace FreeToken.Server

open FreeToken.Lib

/-! ## The base -/

/-- What a parser is built with. -/
structure ReasoningConfig where
  thinkStartToken : Text
  thinkEndToken : Text
  toolStartToken : Option Text
  streamReasoning : Bool := true

/-- The attributes a stream changes. -/
structure ReasoningState where
  inReasoning : Bool
  buffer : Text := []
  strippedThinkStart : Bool := false

def toolHoldMax : Nat := 512

/-- `text.replace(pat, "", 1)`. -/
def dropFirst (pat text : Text) : Text :=
  match find pat text with
  | some i => text.take i ++ text.drop (i + pat.length)
  | none => text

namespace BaseReasoningParser

variable (cfg : ReasoningConfig)

/-- `_split_trailing_partial`. -/
def splitTrailingPartial (stripped : Bool) (text : Text) : Text × Text :=
  let tokens := cfg.thinkEndToken ::
    ((if stripped then [] else [cfg.thinkStartToken]) ++ cfg.toolStartToken.toList)
  let best := partialSuffix tokens text
  (text.take (text.length - best), text.drop (text.length - best))

/-- An increment behind the opening marker, where there is one: `text` is the buffer and the
piece. -/
def read (s : ReasoningState) (text : Text) : ReasoningState × ReasoningParseResult :=
  match if s.inReasoning then find cfg.thinkEndToken text else none with
  | some i =>
    ({ s with buffer := [], inReasoning := false },
      { reasoningText := rstrip (text.take i)
        normalText := text.drop (i + cfg.thinkEndToken.length) })
  | none =>
    match if s.inReasoning then cfg.toolStartToken.bind (find · text) else none with
    | some i =>
      let held := text.drop i
      if toolHoldMax < held.length then
        ({ s with buffer := [], inReasoning := false },
          { reasoningText := text.take i, normalText := held })
      else ({ s with buffer := held }, { reasoningText := text.take i })
    | none =>
      let (safe, held) := splitTrailingPartial cfg s.strippedThinkStart text
      if s.inReasoning && !cfg.streamReasoning then ({ s with buffer := text }, 0)
      else if s.inReasoning then ({ s with buffer := held }, { reasoningText := safe })
      else ({ s with buffer := held }, { normalText := safe })

/-- `parse_streaming_increment`. -/
def parseStreamingIncrement (s : ReasoningState) (newText : Text) :
    ReasoningState × ReasoningParseResult :=
  let text := s.buffer ++ newText
  if !s.strippedThinkStart && contains cfg.thinkStartToken text then
    read cfg { s with strippedThinkStart := true, inReasoning := true }
      (dropFirst cfg.thinkStartToken text)
  else read cfg s text

def flush (s : ReasoningState) : ReasoningParseResult :=
  if s.buffer = [] then 0
  else if cfg.toolStartToken.any (·.isPrefixOf (lstrip s.buffer)) then { normalText := s.buffer }
  else if s.inReasoning then { reasoningText := s.buffer }
  else { normalText := s.buffer }

/-- The increments of all pieces, and the flush. -/
def stream (s : ReasoningState) : List Text → ReasoningParseResult
  | [] => flush cfg s
  | piece :: pieces =>
    (parseStreamingIncrement cfg s piece).2 + stream (parseStreamingIncrement cfg s piece).1 pieces

end BaseReasoningParser

/-! ## The parser -/

namespace MiniMaxM3

open BaseReasoningParser

def thinkStart : Text := "<mm:think>".toList

def thinkEnd : Text := "</mm:think>".toList

def toolStart : Text := "]<]minimax[>[<tool_call>".toList

def config : ReasoningConfig where
  thinkStartToken := thinkStart
  thinkEndToken := thinkEnd
  toolStartToken := some toolStart

/-- A text inside the reasoning: it ends at the closer, or else at the first tool block. -/
def readWhole (text : Text) : ReasoningParseResult :=
  match find thinkEnd text with
  | some i => { reasoningText := text.take i, normalText := text.drop (i + thinkEnd.length) }
  | none =>
    match find toolStart text with
    | some t => { reasoningText := text.take t, normalText := text.drop t }
    | none => { reasoningText := text }

/-- `detect_and_parse`. -/
def detectAndParse (forceReasoning : Bool) (text : Text) : ReasoningParseResult :=
  if forceReasoning then readWhole text
  else
    let head := lstrip text
    if thinkEnd.isPrefixOf head then { normalText := head.drop thinkEnd.length }
    else
      match find thinkStart text with
      | none => { normalText := text }
      | some i =>
        let before := text.take i
        let body := text.drop (i + thinkStart.length)
        match find thinkEnd body with
        | some j =>
          { reasoningText := body.take j
            normalText := before ++ body.drop (j + thinkEnd.length) }
        | none =>
          match find toolStart body with
          | some t => { reasoningText := body.take t, normalText := before ++ body.drop t }
          | none => { reasoningText := body }

structure State where
  base : ReasoningState
  leadingCloserPending : Bool
  headBuffer : Text := []

def init (forceReasoning : Bool) : State where
  base := { inReasoning := forceReasoning }
  leadingCloserPending := !forceReasoning

/-- The head may still become a closer. -/
def headHolds (head : Text) : Bool := head.isEmpty || head.isPrefixOf thinkEnd

/-- `parse_streaming_increment`. -/
def parseStreamingIncrement (s : State) (newText : Text) : State × ReasoningParseResult :=
  if s.leadingCloserPending then
    let headBuffer := s.headBuffer ++ newText
    let head := lstrip headBuffer
    if thinkEnd.isPrefixOf head then
      let base := { s.base with inReasoning := false }
      let rest := head.drop thinkEnd.length
      if rest = [] then ({ base := base, leadingCloserPending := false }, 0)
      else
        let (base, r) := BaseReasoningParser.parseStreamingIncrement config base rest
        ({ base := base, leadingCloserPending := false }, r)
    else if headHolds head then ({ s with headBuffer := headBuffer }, 0)
    else
      let (base, r) := BaseReasoningParser.parseStreamingIncrement config s.base headBuffer
      ({ base := base, leadingCloserPending := false }, r)
  else
    let (base, r) := BaseReasoningParser.parseStreamingIncrement config s.base newText
    ({ s with base := base }, r)

def flush (s : State) : ReasoningParseResult :=
  if s.leadingCloserPending && s.headBuffer ≠ [] then
    let (base, first) := BaseReasoningParser.parseStreamingIncrement config s.base s.headBuffer
    first + BaseReasoningParser.flush config base
  else BaseReasoningParser.flush config s.base

def streamFrom (s : State) : List Text → ReasoningParseResult
  | [] => flush s
  | piece :: pieces =>
    (parseStreamingIncrement s piece).2 + streamFrom (parseStreamingIncrement s piece).1 pieces

/-- A fresh parser's increments over the pieces, and its flush. -/
def stream (forceReasoning : Bool) (pieces : List Text) : ReasoningParseResult :=
  streamFrom (init forceReasoning) pieces

/-! ## What a text of each kind streams to -/

section Runs

theorem increment_eq_read {s : ReasoningState} {piece : Text}
    (h : s.strippedThinkStart = true ∨ find thinkStart (s.buffer ++ piece) = none) :
    BaseReasoningParser.parseStreamingIncrement config s piece =
      read config s (s.buffer ++ piece) := by
  rw [BaseReasoningParser.parseStreamingIncrement, if_neg]
  rcases h with h | h
  · simp [h]
  · simp [contains, config, h]

theorem read_content {s : ReasoningState} {text : Text} (hs : s.inReasoning = false) :
    read config s text =
      ({ s with buffer := (splitTrailingPartial config s.strippedThinkStart text).2 },
        { normalText := (splitTrailingPartial config s.strippedThinkStart text).1 }) := by
  simp [BaseReasoningParser.read, hs]

theorem read_closed {s : ReasoningState} {text : Text} {i : Nat} (hs : s.inReasoning = true)
    (hi : find thinkEnd text = some i) :
    read config s text =
      ({ s with buffer := [], inReasoning := false },
        { reasoningText := rstrip (text.take i)
          normalText := text.drop (i + thinkEnd.length) }) := by
  simp [BaseReasoningParser.read, hs, config, hi]

theorem read_tool {s : ReasoningState} {text : Text} {t : Nat} (hs : s.inReasoning = true)
    (hnone : find thinkEnd text = none) (ht : find toolStart text = some t) :
    read config s text =
      if toolHoldMax < (text.drop t).length then
        ({ s with buffer := [], inReasoning := false },
          { reasoningText := text.take t, normalText := text.drop t })
      else ({ s with buffer := text.drop t }, { reasoningText := text.take t }) := by
  simp only [BaseReasoningParser.read, hs, if_true]
  rw [show config.thinkEndToken = thinkEnd from rfl, hnone]
  rw [show config.toolStartToken.bind (find · text) = some t from ht]

theorem read_thought {s : ReasoningState} {text : Text} (hs : s.inReasoning = true)
    (hnone : find thinkEnd text = none) (hT : find toolStart text = none) :
    read config s text =
      ({ s with buffer := (splitTrailingPartial config s.strippedThinkStart text).2 },
        { reasoningText := (splitTrailingPartial config s.strippedThinkStart text).1 }) := by
  simp only [BaseReasoningParser.read, hs, if_true]
  rw [show config.thinkEndToken = thinkEnd from rfl, hnone]
  rw [show config.toolStartToken.bind (find · text) = none from hT]
  simp [config]

theorem split_append (stripped : Bool) (text : Text) :
    (splitTrailingPartial config stripped text).1 ++ (splitTrailingPartial config stripped text).2 =
      text := List.take_append_drop _ _

theorem flush_content {s : ReasoningState} (hs : s.inReasoning = false) :
    BaseReasoningParser.flush config s = { normalText := s.buffer } := by
  rw [BaseReasoningParser.flush]
  split
  · rename_i h
    rw [h]
    rfl
  · simp [hs]

theorem stream_step {s s' : ReasoningState} {piece : Text} {r : ReasoningParseResult}
    (h : BaseReasoningParser.parseStreamingIncrement config s piece = (s', r))
    (pieces : List Text) :
    BaseReasoningParser.stream config s (piece :: pieces) =
      r + BaseReasoningParser.stream config s' pieces := by
  rw [BaseReasoningParser.stream, h]

/-- Outside the reasoning, with no opener to come, everything is content. -/
theorem normal_run (pieces : List Text) : ∀ {s : ReasoningState}, s.inReasoning = false →
    (s.strippedThinkStart = true ∨ find thinkStart (s.buffer ++ pieces.flatten) = none) →
    BaseReasoningParser.stream config s pieces = { normalText := s.buffer ++ pieces.flatten } := by
  induction pieces with
  | nil =>
    intro s hs hopen
    rw [List.flatten_nil, List.append_nil]
    exact flush_content hs
  | cons piece pieces ih =>
    intro s hs hopen
    rw [List.flatten_cons, ← List.append_assoc] at hopen ⊢
    have hread := increment_eq_read (hopen.imp_right find_none_of_append)
    rw [read_content hs] at hread
    have hsplit := split_append s.strippedThinkStart (s.buffer ++ piece)
    rw [stream_step hread, ih (by exact hs) ?_]
    · ext1
      · rfl
      · show _ ++ (_ ++ _) = _
        rw [← List.append_assoc, hsplit]
    · show _ ∨ find thinkStart ((splitTrailingPartial config _ _).2 ++ _) = none
      refine hopen.imp_right fun hnone => ?_
      rw [← hsplit, List.append_assoc] at hnone
      exact find_none_of_suffix hnone

/-- A text inside the reasoning that any cut leaves as it is: no white space in front of the closer,
and the closer is not held for longer than a tool block may be. -/
def Clean (text : Text) : Prop :=
  ∀ i, find thinkEnd text = some i → rstrip (text.take i) = text.take i ∧
    ∀ t, find toolStart (text.take i) = some t → i + thinkEnd.length ≤ t + toolHoldMax + 1

theorem rstrip_right {a b : Text} (h : rstrip (a ++ b) = a ++ b) : rstrip b = b := by
  rw [rstrip, List.rdropWhile_eq_self_iff] at h ⊢
  intro hb
  have := h (List.append_ne_nil_of_right_ne_nil a hb)
  rwa [List.getLast_append_of_ne_nil _ hb] at this

theorem Clean.skip {a b : Text} (h : Clean (a ++ b))
    (hend : ∀ i < a.length, ¬thinkEnd <+: (a ++ b).drop i)
    (htool : ∀ i < a.length, ¬toolStart <+: (a ++ b).drop i) : Clean b := by
  intro i hi
  have hall := h (i + a.length) (by rw [find_skip hend, hi]; rfl)
  rw [Nat.add_comm, List.take_length_add_append] at hall
  refine ⟨rstrip_right hall.1, fun t ht => ?_⟩
  have hfind : find toolStart (a ++ b.take i) = some (t + a.length) := by
    rw [find_skip, ht]
    · rfl
    · intro j hj hpre
      refine htool j hj (hpre.trans ?_)
      rw [List.drop_append_of_le_length hj.le, List.drop_append_of_le_length hj.le]
      exact (List.prefix_append_right_inj _).mpr (List.take_prefix _ _)
  have := hall.2 _ hfind
  omega

/-- What no marker starts in is reasoning. -/
theorem readWhole_skip {a b : Text} (hend : ∀ i < a.length, ¬thinkEnd <+: (a ++ b).drop i)
    (htool : ∀ i < a.length, ¬toolStart <+: (a ++ b).drop i) :
    readWhole (a ++ b) = { reasoningText := a } + readWhole b := by
  unfold readWhole
  rw [find_skip hend, find_skip htool]
  cases find thinkEnd b with
  | some i =>
    ext1
    · simp [Nat.add_comm i, List.take_length_add_append]
    · simp [Nat.add_comm i, Nat.add_assoc, List.drop_append]
  | none =>
    cases find toolStart b with
    | some t =>
      ext1
      · simp [Nat.add_comm t, List.take_length_add_append]
      · simp [Nat.add_comm t, List.drop_append]
    | none => rfl

theorem readWhole_closed {text : Text} {i : Nat} (hi : find thinkEnd text = some i) :
    readWhole text =
      { reasoningText := text.take i, normalText := text.drop (i + thinkEnd.length) } := by
  simp [readWhole, hi]

theorem readWhole_tool {text : Text} {t : Nat} (hend : find thinkEnd text = none)
    (ht : find toolStart text = some t) :
    readWhole text = { reasoningText := text.take t, normalText := text.drop t } := by
  simp [readWhole, hend, ht]

theorem lstrip_prefix_tool {text : Text} (h : toolStart <+: lstrip text) :
    ∃ t, find toolStart text = some t := by
  have hsuf : lstrip text <:+ text := List.dropWhile_suffix _
  obtain ⟨a, ha⟩ := hsuf
  refine Option.isSome_iff_exists.mp (find_isSome_of_start (j := a.length) ?_)
  rwa [← ha, List.drop_left]

/-- The buffer of the reasoning holds no closer, and a tool block only from its start. -/
structure Held (buffer : Text) : Prop where
  no_end : find thinkEnd buffer = none
  tool : ∀ t, find toolStart buffer = some t → t = 0

theorem held_nil : Held [] where
  no_end := find_nil (by decide)
  tool t ht := by
    rw [find_nil (by decide)] at ht
    simp at ht

theorem flush_reasoning {s : ReasoningState} (hs : s.inReasoning = true) (hh : Held s.buffer) :
    BaseReasoningParser.flush config s = readWhole s.buffer := by
  rw [BaseReasoningParser.flush]
  split
  · rename_i h
    rw [h]
    rfl
  · simp only [config, Option.any_some, List.isPrefixOf_iff_prefix]
    cases ht : find toolStart s.buffer with
    | none =>
      rw [if_neg]
      · simp [readWhole, hh.no_end, ht]
      · intro hpre
        obtain ⟨t, h⟩ := lstrip_prefix_tool hpre
        rw [ht] at h
        simp at h
    | some t =>
      obtain rfl := hh.tool t ht
      rw [readWhole_tool hh.no_end ht, if_pos]
      · rfl
      · -- a tool block does not start with white space
        obtain ⟨rest, hrest⟩ := prefix_of_find ht
        rw [List.drop_zero] at hrest
        rw [← hrest]
        exact List.prefix_append _ _

/-- A held tool block that has grown past the limit has no closer behind it. -/
theorem Clean.no_end_of_long {text rest : Text} {t : Nat} (h : Clean (text ++ rest))
    (hnone : find thinkEnd text = none) (ht : find toolStart text = some t)
    (hlong : toolHoldMax < (text.drop t).length) : find thinkEnd (text ++ rest) = none := by
  cases hi : find thinkEnd (text ++ rest) with
  | none => rfl
  | some i =>
    have hlate := find_append_of_none hnone hi
    have htool := find_add_length_le ht
    rw [List.length_drop] at hlong
    have hends : thinkEnd.length = 11 := rfl
    have htools : toolStart.length = 24 := rfl
    have hmax : toolHoldMax = 512 := rfl
    have htake : find toolStart ((text ++ rest).take i) = some t :=
      find_take (find_append ht rest) (by omega)
    have := (h i hi).2 t htake
    omega

/-- **A stream inside the reasoning.** What is buffered and still to come is read as a whole. -/
theorem reasoning_run (pieces : List Text) : ∀ {s : ReasoningState}, s.inReasoning = true →
    Held s.buffer →
    (s.strippedThinkStart = true ∨ find thinkStart (s.buffer ++ pieces.flatten) = none) →
    Clean (s.buffer ++ pieces.flatten) →
    BaseReasoningParser.stream config s pieces = readWhole (s.buffer ++ pieces.flatten) := by
  induction pieces with
  | nil =>
    intro s hs hheld hopen hclean
    rw [List.flatten_nil, List.append_nil]
    exact flush_reasoning hs hheld
  | cons piece pieces ih =>
    intro s hs hheld hopen hclean
    rw [List.flatten_cons, ← List.append_assoc] at hopen hclean ⊢
    have hread := increment_eq_read (hopen.imp_right find_none_of_append)
    generalize s.buffer ++ piece = text at hread hopen hclean ⊢
    cases hi : find thinkEnd text with
    | some i =>
      -- the closer is here: what follows is content
      have hend := find_add_length_le hi
      rw [read_closed hs hi] at hread
      rw [stream_step hread, normal_run pieces rfl (hopen.imp_right find_none_of_suffix)]
      have hall := find_append hi pieces.flatten
      have htrim := (hclean i hall).1
      rw [List.take_append_of_le_length (by omega)] at htrim
      rw [readWhole_closed hall, htrim, List.take_append_of_le_length (by omega),
        List.drop_append_of_le_length (by omega)]
      ext1
      · exact List.append_nil _
      · rfl
    | none =>
      cases ht : find toolStart text with
      | some t =>
        have htool := find_add_length_le ht
        rw [read_tool hs hi ht] at hread
        by_cases hlong : toolHoldMax < (text.drop t).length
        · -- the tool block is let go as content
          rw [if_pos hlong] at hread
          rw [stream_step hread, normal_run pieces rfl (hopen.imp_right find_none_of_suffix),
            readWhole_tool (hclean.no_end_of_long hi ht hlong) (find_append ht _),
            List.take_append_of_le_length (by omega), List.drop_append_of_le_length (by omega)]
          ext1
          · exact List.append_nil _
          · rfl
        · -- the tool block is held, from its start on
          rw [if_neg hlong] at hread
          have hcut : text ++ pieces.flatten = text.take t ++ (text.drop t ++ pieces.flatten) := by
            rw [← List.append_assoc, List.take_append_drop]
          have hno : ∀ j < (text.take t).length, ¬thinkEnd <+:
              (text.take t ++ (text.drop t ++ pieces.flatten)).drop j := by
            intro j hj hpre
            rw [List.length_take] at hj
            rw [← hcut] at hpre
            have hends : thinkEnd.length = 11 := rfl
            have htools : toolStart.length = 24 := rfl
            exact find_eq_none_iff.mp hi j (prefix_drop_of_append hpre (by omega))
          have hno' : ∀ j < (text.take t).length, ¬toolStart <+:
              (text.take t ++ (text.drop t ++ pieces.flatten)).drop j := by
            intro j hj
            rw [List.length_take] at hj
            rw [← hcut]
            exact (find_eq_some_iff.mp (find_append ht pieces.flatten)).2.2 j (by omega)
          have hnone : find thinkEnd (text.drop t) = none := by
            rw [← List.take_append_drop t text] at hi
            exact find_none_of_suffix hi
          rw [hcut] at hopen hclean ⊢
          rw [stream_step hread, ih (by exact hs) ⟨hnone, ?_⟩
            (hopen.imp_right find_none_of_suffix) (hclean.skip hno hno'), readWhole_skip hno hno']
          intro u hu
          have hzero : find toolStart (text.drop t) = some 0 :=
            find_eq_some_iff.mpr ⟨Nat.zero_le _, by rw [List.drop_zero]; exact prefix_of_find ht, by simp⟩
          rw [hzero, Option.some.injEq] at hu
          exact hu.symm
      | none =>
        -- only what may become a marker is held
        rw [read_thought hs hi ht] at hread
        have hsplit := split_append s.strippedThinkStart text
        have hno : Free thinkEnd _ _ := @free_of_partialSuffix _ _
          (thinkEnd :: ((if s.strippedThinkStart then [] else [thinkStart]) ++ [toolStart])) _ _
          (List.mem_cons_self ..) hi
        have hno' : Free toolStart _ _ := @free_of_partialSuffix _ _
          (thinkEnd :: ((if s.strippedThinkStart then [] else [thinkStart]) ++ [toolStart])) _ _
          (by simp) ht
        change Free _ (splitTrailingPartial config s.strippedThinkStart text).1
          (splitTrailingPartial config s.strippedThinkStart text).2 at hno hno'
        generalize splitTrailingPartial config s.strippedThinkStart text = parts
          at hread hsplit hno hno'
        rw [← hsplit] at hi ht
        rw [← hsplit, List.append_assoc] at hopen hclean ⊢
        have hskip := fun j hj => hno pieces.flatten j hj
        have hskip' := fun j hj => hno' pieces.flatten j hj
        rw [List.append_assoc] at hskip hskip'
        rw [stream_step hread, ih (by exact hs) ⟨find_none_of_suffix hi, ?_⟩
          (hopen.imp_right find_none_of_suffix) (hclean.skip hskip hskip'),
          readWhole_skip hskip hskip']
        intro u hu
        rw [find_none_of_suffix ht] at hu
        simp at hu

/-! ### In front of the reasoning -/

/-- The reader behind an opener. -/
def opened : ReasoningState where
  inReasoning := true
  strippedThinkStart := true

theorem opened_run {pieces : List Text} (h : Clean pieces.flatten) :
    BaseReasoningParser.stream config opened pieces = readWhole pieces.flatten :=
  reasoning_run pieces rfl held_nil (Or.inl rfl) h

/-- An opener is cut out of the buffer, and the rest of it is read as reasoning. -/
theorem stream_open {s : ReasoningState} {piece : Text} {i : Nat}
    (hs : s.strippedThinkStart = false) (hi : find thinkStart (s.buffer ++ piece) = some i)
    (pieces : List Text) :
    BaseReasoningParser.stream config s (piece :: pieces) =
      BaseReasoningParser.stream config opened
        (((s.buffer ++ piece).take i ++ (s.buffer ++ piece).drop (i + thinkStart.length)) ::
          pieces) := by
  rw [BaseReasoningParser.stream, BaseReasoningParser.stream]
  have hopen : BaseReasoningParser.parseStreamingIncrement config s piece =
      read config opened (dropFirst thinkStart (s.buffer ++ piece)) := by
    rw [BaseReasoningParser.parseStreamingIncrement, if_pos]
    · rfl
    · simp [hs, contains, config, hi]
  rw [hopen, dropFirst, hi, increment_eq_read (Or.inl rfl)]
  rfl

/-- Tool blocks that hold nothing but their opening marker. -/
def tools (n : Nat) : Text := (List.replicate n toolStart).flatten

theorem tools_succ (n : Nat) : tools (n + 1) = toolStart ++ tools n := by
  simp [tools, List.replicate_succ]

theorem tools_succ' (n : Nat) : tools (n + 1) = tools n ++ toolStart := by
  simp [tools, List.replicate_succ']

/-- No marker overlaps the end of a tool block's. -/
theorem start_free : Free thinkStart toolStart [] := free_of_no_overlap (by decide +kernel)

theorem end_free : Free thinkEnd toolStart [] := free_of_no_overlap (by decide +kernel)

theorem find_start_tools (n : Nat) (rest : Text) :
    find thinkStart (tools n ++ rest) = (find thinkStart rest).map (· + (tools n).length) := by
  induction n with
  | zero => simp [tools]
  | succ n ih =>
    rw [tools_succ, List.append_assoc, ← List.append_nil toolStart, start_free.find_append,
      List.nil_append, ih, Option.map_map]
    congr 1

theorem find_end_tools (n : Nat) {rest : Text} (h : find thinkEnd rest = none) :
    find thinkEnd (tools n ++ rest) = none := by
  induction n with
  | zero => simpa [tools] using h
  | succ n ih =>
    rw [tools_succ, List.append_assoc, ← List.append_nil toolStart, end_free.find_append,
      List.nil_append, ih]
    rfl

theorem find_tool_tools {n : Nat} (hn : 0 < n) (rest : Text) :
    find toolStart (tools n ++ rest) = some 0 := by
  obtain ⟨n, rfl⟩ := Nat.exists_eq_succ_of_ne_zero hn.ne'
  rw [tools_succ, List.append_assoc]
  exact find_eq_some_iff.mpr ⟨Nat.zero_le _, List.prefix_append _ _, by simp⟩

def tokens : List Text := [thinkEnd, thinkStart, toolStart]

/-- Whole tool markers leave nothing to hold. -/
theorem partialSuffix_tools (n : Nat) : partialSuffix tokens (tools n) = 0 := by
  rcases partialSuffix_spec tokens (tools n) with h | ⟨tok, htok, hlt, hsuf⟩
  · exact h
  · by_contra hne
    have hno : ∀ tok ∈ tokens, ∀ k < tok.length, k ≠ 0 → ¬tok.take k <:+ toolStart := by
      decide +kernel
    have hlong : ∀ tok ∈ tokens, tok.length ≤ toolStart.length := by decide +kernel
    refine hno tok htok _ hlt hne ?_
    cases n with
    | zero =>
      have := hsuf.length_le
      rw [List.length_take, show (tools 0).length = 0 from rfl] at this
      omega
    | succ n =>
      rw [tools_succ'] at hsuf ⊢
      refine List.suffix_of_suffix_length_le hsuf (List.suffix_append _ _) ?_
      rw [List.length_take]
      have := hlong tok htok
      omega

/-- Behind whole tool markers, the beginning of a marker is what is held. -/
theorem split_tools (n : Nat) {q tok : Text} (htok : tok ∈ tokens) (hq : q <+: tok)
    (hlt : q.length < tok.length) :
    splitTrailingPartial config false (tools n ++ q) = (tools n, q) := by
  have hle := partialSuffix_append_le tokens (tools n) q
  rw [partialSuffix_tools, Nat.zero_add] at hle
  have hge : q.length ≤ partialSuffix tokens (tools n ++ q) := by
    refine le_partialSuffix htok hlt ?_
    rw [← List.prefix_iff_eq_take.mp hq]
    exact List.suffix_append _ _
  show ((tools n ++ q).take ((tools n ++ q).length - partialSuffix tokens (tools n ++ q)),
    (tools n ++ q).drop ((tools n ++ q).length - partialSuffix tokens (tools n ++ q))) = _
  rw [show (tools n ++ q).length - partialSuffix tokens (tools n ++ q) = (tools n).length by
    rw [List.length_append]; omega, List.take_left, List.drop_left]

/-! ### The opener -/

/-- A text that stops in front of the opener's end stops in the beginning of a marker. -/
theorem cut_in_marker : ∀ {j : Nat} {text body : Text},
    text <+: tools j ++ (thinkStart ++ body) → find thinkStart text = none →
    ∃ m q, m ≤ j ∧ text = tools m ++ q ∧
      ∃ tok ∈ tokens, q <+: tok ∧ q.length < tok.length := by
  intro j
  induction j with
  | zero =>
    intro text body hpre hnone
    have hpre : text <+: thinkStart ++ body := hpre
    refine ⟨0, text, Nat.le_refl _, rfl, thinkStart, by simp [tokens], ?_⟩
    rcases Nat.lt_or_ge text.length thinkStart.length with hlt | hge
    · exact ⟨List.prefix_of_prefix_length_le hpre (List.prefix_append _ _) hlt.le, hlt⟩
    · -- the whole opener would be in the text
      have hstart := List.prefix_of_prefix_length_le (List.prefix_append _ _) hpre hge
      exact absurd hstart (by simpa using find_eq_none_iff.mp hnone 0)
  | succ j ih =>
    intro text body hpre hnone
    rw [tools_succ, List.append_assoc] at hpre
    rcases Nat.lt_or_ge text.length toolStart.length with hlt | hge
    · exact ⟨0, text, Nat.zero_le _, rfl, toolStart, by simp [tokens],
        List.prefix_of_prefix_length_le hpre (List.prefix_append _ _) hlt.le, hlt⟩
    · obtain ⟨text', rfl⟩ := List.prefix_of_prefix_length_le (List.prefix_append _ _) hpre hge
      obtain ⟨m, q, hm, rfl, hq⟩ :=
        ih ((List.prefix_append_right_inj _).mp hpre) (find_none_of_suffix hnone)
      refine ⟨m + 1, q, Nat.succ_le_succ hm, ?_, hq⟩
      rw [tools_succ, List.append_assoc]

/-- What may stand behind an opener that has `j` bare tool markers in front of it. -/
def Behind (j : Nat) (body : Text) : Prop :=
  j = 0 ∧ Clean body ∨ toolStart <+: body ∧ find thinkEnd body = none

theorem Behind.clean {j : Nat} {body : Text} (h : Behind j body) : Clean (tools j ++ body) := by
  rcases h with ⟨rfl, hclean⟩ | ⟨-, hend⟩
  · exact hclean
  · intro i hi
    rw [find_end_tools j hend] at hi
    cases hi

theorem find_tool_leading {j : Nat} {body : Text} (h : toolStart <+: body) :
    find toolStart (tools j ++ body) = some 0 := by
  obtain ⟨rest, rfl⟩ := h
  rw [← List.append_assoc, ← tools_succ']
  exact find_tool_tools (Nat.succ_pos j) rest

/-- Tool markers that were let go as content join the others. -/
theorem Behind.readWhole_tools {m j : Nat} {body : Text} (h : Behind (m + j) body) :
    ({ normalText := tools m } : ReasoningParseResult) + readWhole (tools j ++ body) =
      readWhole (tools (m + j) ++ body) := by
  rcases h with ⟨hzero, -⟩ | ⟨htool, hend⟩
  · obtain ⟨rfl, rfl⟩ : m = 0 ∧ j = 0 := by omega
    ext1
    · rfl
    · rfl
  · rw [readWhole_tool (find_end_tools _ hend) (find_tool_leading htool),
      readWhole_tool (find_end_tools _ hend) (find_tool_leading htool)]
    ext1
    · rfl
    · show tools m ++ (tools j ++ body) = tools (m + j) ++ body
      rw [← List.append_assoc]
      congr 1
      simp only [tools, ← List.flatten_append, List.replicate_append_replicate]

/-- **A stream up to an opener.** Behind nothing but bare tool markers, the opener is taken out and
the rest is read as reasoning. -/
theorem opening_run (pieces : List Text) : ∀ {s : ReasoningState} {j : Nat} {body : Text},
    s.inReasoning = false → s.strippedThinkStart = false → find thinkStart s.buffer = none →
    s.buffer ++ pieces.flatten = tools j ++ (thinkStart ++ body) → Behind j body →
    BaseReasoningParser.stream config s pieces = readWhole (tools j ++ body) := by
  induction pieces with
  | nil =>
    intro s j body _ _ hbuffer htext _
    rw [List.flatten_nil, List.append_nil] at htext
    have hsome : find thinkStart (tools j ++ (thinkStart ++ body)) = some (tools j).length := by
      rw [find_start_tools, find_eq_some_iff.mpr ⟨Nat.zero_le _, List.prefix_append _ _, by simp⟩]
      simp
    rw [← htext, hbuffer] at hsome
    cases hsome
  | cons piece pieces ih =>
    intro s j body hs hstripped hbuffer htext hbehind
    rw [List.flatten_cons, ← List.append_assoc] at htext
    cases hi : find thinkStart (s.buffer ++ piece) with
    | some i =>
      -- the opener is here, behind the tool markers
      have hall := find_append hi pieces.flatten
      rw [htext, find_start_tools,
        find_eq_some_iff.mpr ⟨Nat.zero_le _, List.prefix_append _ _, by simp⟩] at hall
      simp only [Option.map_some, Nat.zero_add, Option.some.injEq] at hall
      subst hall
      have hle := find_add_length_le hi
      rw [stream_open hstripped hi]
      have hflat : (((s.buffer ++ piece).take (tools j).length ++
          (s.buffer ++ piece).drop ((tools j).length + thinkStart.length)) :: pieces).flatten =
          tools j ++ body := by
        have htake := @List.take_append_of_le_length _ (s.buffer ++ piece)
          pieces.flatten (tools j).length (by omega)
        have hdrop := @List.drop_append_of_le_length _ _ pieces.flatten _ hle
        rw [List.flatten_cons, List.append_assoc, ← htake, ← hdrop, htext]
        rw [List.take_left, ← List.drop_drop, List.drop_left, List.drop_left]
      have hclean := hbehind.clean
      rw [← hflat] at hclean
      rw [opened_run hclean, hflat]
    | none =>
      have hread := increment_eq_read (Or.inr hi)
      rw [read_content hs, hstripped] at hread
      obtain ⟨m, q, hm, hcut, tok, htok, hq, hlt⟩ := cut_in_marker (List.prefix_iff_eq_append.mpr
        (by rw [← htext, List.drop_left])) hi
      rw [hcut, split_tools m htok hq hlt] at hread
      obtain ⟨k, rfl⟩ := Nat.exists_eq_add_of_le hm
      rw [hcut, List.append_assoc] at htext
      have hrest : q ++ pieces.flatten = tools k ++ (thinkStart ++ body) := by
        have hsplit : tools (m + k) = tools m ++ tools k := by
          simp only [tools, ← List.flatten_append, List.replicate_append_replicate]
        rw [hsplit, List.append_assoc] at htext
        exact List.append_cancel_left htext
      have hbehind' : Behind k body := by
        refine hbehind.imp_left fun h => ⟨?_, h.2⟩
        have := h.1
        omega
      rw [stream_step hread, ih (by exact hs) rfl ?_ hrest hbehind']
      · exact hbehind.readWhole_tools
      · rw [hcut] at hi
        exact find_none_of_suffix hi

/-! ### The head -/

/-- Once the head is decided, the base streams. -/
theorem streamFrom_base (pieces : List Text) : ∀ {s : State}, s.leadingCloserPending = false →
    streamFrom s pieces = BaseReasoningParser.stream config s.base pieces := by
  induction pieces with
  | nil =>
    intro s hs
    simp [streamFrom, flush, hs, BaseReasoningParser.stream]
  | cons piece pieces ih =>
    intro s hs
    rw [streamFrom, BaseReasoningParser.stream]
    simp only [parseStreamingIncrement, hs, Bool.false_eq_true, if_false]
    rw [ih rfl]

theorem lstrip_append {a b : Text} (h : lstrip a ≠ []) : lstrip (a ++ b) = lstrip a ++ b := by
  unfold lstrip at h ⊢
  rw [List.dropWhile_append, if_neg]
  simpa using h

/-- A head that never becomes a closer is replayed, so that the base streams the text in some other
pieces. -/
theorem head_run (pieces : List Text) : ∀ {base : ReasoningState} {head : Text},
    ¬thinkEnd <+: lstrip (head ++ pieces.flatten) →
    ∃ pieces' : List Text, pieces'.flatten = head ++ pieces.flatten ∧
      streamFrom ⟨base, true, head⟩ pieces = BaseReasoningParser.stream config base pieces' := by
  induction pieces with
  | nil =>
    intro base head _
    by_cases hempty : head = []
    · refine ⟨[], by rw [hempty]; rfl, ?_⟩
      simp [streamFrom, flush, hempty, BaseReasoningParser.stream]
    · refine ⟨[head], by simp, ?_⟩
      simp [streamFrom, flush, hempty, BaseReasoningParser.stream]
  | cons piece pieces ih =>
    intro base head hend
    rw [List.flatten_cons, ← List.append_assoc] at hend
    have hnow : ¬thinkEnd <+: lstrip (head ++ piece) := by
      intro hpre
      have hne : lstrip (head ++ piece) ≠ [] := by
        intro hnil
        rw [hnil] at hpre
        exact absurd hpre.length_le (by decide)
      rw [lstrip_append hne] at hend
      exact hend (hpre.trans (List.prefix_append _ _))
    have hnow' : thinkEnd.isPrefixOf (lstrip (head ++ piece)) = false := by
      rw [Bool.eq_false_iff, ne_eq, List.isPrefixOf_iff_prefix]
      exact hnow
    cases hholds : headHolds (lstrip (head ++ piece)) with
    | true =>
      obtain ⟨pieces', hflat, hstream⟩ := @ih base _ hend
      refine ⟨pieces', by rw [hflat, List.flatten_cons, List.append_assoc], ?_⟩
      rw [← hstream, streamFrom]
      simp only [parseStreamingIncrement, if_true, hnow', Bool.false_eq_true, if_false, hholds]
      ext1
      · rfl
      · rfl
    | false =>
      refine ⟨(head ++ piece) :: pieces, by simp, ?_⟩
      rw [streamFrom, BaseReasoningParser.stream]
      simp only [parseStreamingIncrement, if_true, hnow', Bool.false_eq_true, if_false, hholds]
      rw [streamFrom_base pieces rfl]

/-- A head that becomes a closer is dropped with it, and the rest is content. -/
theorem closer_run (pieces : List Text) : ∀ {head : Text}, ¬thinkEnd <+: lstrip head →
    thinkEnd <+: lstrip (head ++ pieces.flatten) →
    find thinkStart ((lstrip (head ++ pieces.flatten)).drop thinkEnd.length) = none →
    streamFrom ⟨{ inReasoning := false }, true, head⟩ pieces =
      { normalText := (lstrip (head ++ pieces.flatten)).drop thinkEnd.length } := by
  induction pieces with
  | nil =>
    intro head hnot hend _
    rw [List.flatten_nil, List.append_nil] at hend
    exact absurd hend hnot
  | cons piece pieces ih =>
    intro head hnot hend hopen
    rw [List.flatten_cons, ← List.append_assoc] at hend hopen ⊢
    by_cases hnow : thinkEnd <+: lstrip (head ++ piece)
    · -- the closer is whole: what follows it is streamed by the base
      have hne : lstrip (head ++ piece) ≠ [] := by
        intro hnil
        rw [hnil] at hnow
        exact absurd hnow.length_le (by decide)
      rw [lstrip_append hne, List.drop_append_of_le_length hnow.length_le] at hopen ⊢
      have hnow' : thinkEnd.isPrefixOf (lstrip (head ++ piece)) = true :=
        List.isPrefixOf_iff_prefix.mpr hnow
      generalize hrest : (lstrip (head ++ piece)).drop thinkEnd.length = rest at hopen ⊢
      by_cases hnil : rest = []
      · have hstep : parseStreamingIncrement ⟨{ inReasoning := false }, true, head⟩ piece =
            (⟨{ inReasoning := false }, false, []⟩, 0) := by
          simp [parseStreamingIncrement, hnow', hrest, hnil]
        rw [streamFrom, hstep, streamFrom_base pieces rfl]
        rw [hnil, List.nil_append] at hopen ⊢
        rw [normal_run pieces (s := { inReasoning := false }) rfl (Or.inr hopen)]
        ext1
        · rfl
        · rfl
      · have hstep : parseStreamingIncrement ⟨{ inReasoning := false }, true, head⟩ piece =
            (⟨(BaseReasoningParser.parseStreamingIncrement config { inReasoning := false } rest).1,
              false, []⟩,
              (BaseReasoningParser.parseStreamingIncrement config { inReasoning := false } rest).2) := by
          simp [parseStreamingIncrement, hnow', hrest, hnil]
        have hbase := normal_run (rest :: pieces) (s := { inReasoning := false }) rfl (Or.inr hopen)
        rw [streamFrom, hstep, streamFrom_base pieces rfl]
        exact hbase
    · have hholds : headHolds (lstrip (head ++ piece)) = true := by
        by_cases hne : lstrip (head ++ piece) = []
        · rw [hne]
          rfl
        · rw [lstrip_append hne] at hend
          have hshort : (lstrip (head ++ piece)).length ≤ thinkEnd.length := by
            by_contra hlong
            exact hnow (List.prefix_of_prefix_length_le hend (List.prefix_append _ _) (by omega))
          have hpre := List.prefix_of_prefix_length_le (List.prefix_append _ _) hend hshort
          rw [headHolds, List.isPrefixOf_iff_prefix.mpr hpre, Bool.or_true]
      have hnow' : thinkEnd.isPrefixOf (lstrip (head ++ piece)) = false := by
        rw [Bool.eq_false_iff, ne_eq, List.isPrefixOf_iff_prefix]
        exact hnow
      have hstep : parseStreamingIncrement ⟨{ inReasoning := false }, true, head⟩ piece =
          (⟨{ inReasoning := false }, true, head ++ piece⟩, 0) := by
        simp [parseStreamingIncrement, hnow', hholds]
      rw [streamFrom, hstep, ih hnow hend hopen]
      ext1
      · rfl
      · rfl

end Runs

/-! ## One shot and stream -/

/-- The text without the markers that the grammar gives a meaning. -/
def outside (forceReasoning : Bool) (text : Text) : Text :=
  if forceReasoning then dropFirst thinkEnd text
  else if thinkEnd.isPrefixOf (lstrip text) then (lstrip text).drop thinkEnd.length
  else
    match find thinkStart text with
    | none => text
    | some i => text.take i ++ dropFirst thinkEnd (text.drop (i + thinkStart.length))

/-- Every stream of the text returns what the one-shot parse does, and nothing else of the text than
the markers is dropped. -/
structure Matches (forceReasoning : Bool) (text : Text) : Prop where
  stream : ∀ pieces : List Text, pieces.flatten = text →
    MiniMaxM3.stream forceReasoning pieces = detectAndParse forceReasoning text
  kept : ((detectAndParse forceReasoning text).reasoningText ++
    (detectAndParse forceReasoning text).normalText).Perm (outside forceReasoning text)

/-- Where both go the same way: no opener comes where a stream does not expect one, no white space
stands in front of the closer, and nothing but bare tool markers in front of the opener. -/
def Agrees (forceReasoning : Bool) (text : Text) : Prop :=
  if forceReasoning then find thinkStart text = none ∧ Clean text
  else if thinkEnd.isPrefixOf (lstrip text) then
    find thinkStart ((lstrip text).drop thinkEnd.length) = none
  else ∀ i, find thinkStart text = some i →
    ∃ j, text.take i = tools j ∧ Behind j (text.drop (i + thinkStart.length))

theorem readWhole_kept (text : Text) :
    (readWhole text).reasoningText ++ (readWhole text).normalText = dropFirst thinkEnd text := by
  unfold readWhole dropFirst
  cases find thinkEnd text with
  | some i => rfl
  | none =>
    cases find toolStart text with
    | some t => exact List.take_append_drop t text
    | none => exact List.append_nil text

/-- A parse behind an opener that follows bare tool markers. -/
theorem detectAndParse_opened {text : Text} {i j : Nat}
    (hcloser : thinkEnd.isPrefixOf (lstrip text) = false) (hi : find thinkStart text = some i)
    (hbefore : text.take i = tools j) (hbehind : Behind j (text.drop (i + thinkStart.length))) :
    detectAndParse false text = readWhole (tools j ++ text.drop (i + thinkStart.length)) := by
  unfold detectAndParse
  simp only [Bool.false_eq_true, if_false, hcloser, hi, hbefore]
  rcases hbehind with ⟨rfl, -⟩ | ⟨htool, hend⟩
  · show _ = readWhole (text.drop (i + thinkStart.length))
    unfold readWhole
    cases find thinkEnd (text.drop (i + thinkStart.length)) with
    | some k => rfl
    | none => cases find toolStart (text.drop (i + thinkStart.length)) <;> rfl
  · have hzero : find toolStart (text.drop (i + thinkStart.length)) = some 0 :=
      find_tool_leading (j := 0) htool
    rw [readWhole_tool (find_end_tools _ hend) (find_tool_leading htool), hend, hzero]
    rfl

theorem stream_of_agrees {forceReasoning : Bool} {pieces : List Text}
    (h : Agrees forceReasoning pieces.flatten) :
    stream forceReasoning pieces = detectAndParse forceReasoning pieces.flatten := by
  unfold Agrees at h
  unfold stream
  cases forceReasoning with
  | true =>
    rw [if_pos rfl] at h
    rw [streamFrom_base pieces rfl]
    exact reasoning_run pieces rfl held_nil (Or.inr h.1) h.2
  | false =>
    rw [if_neg Bool.false_ne_true] at h
    show streamFrom ⟨{ inReasoning := false }, true, []⟩ pieces = _
    cases hcloser : thinkEnd.isPrefixOf (lstrip pieces.flatten) with
    | true =>
      rw [if_pos hcloser] at h
      rw [closer_run pieces (by decide) (List.isPrefixOf_iff_prefix.mp hcloser) h]
      unfold detectAndParse
      rw [if_neg Bool.false_ne_true]
      simp only [hcloser, if_true, List.nil_append]
    | false =>
      rw [hcloser, if_neg Bool.false_ne_true] at h
      have hnot : ¬thinkEnd <+: lstrip ([] ++ pieces.flatten) := by
        rw [List.nil_append, ← List.isPrefixOf_iff_prefix, hcloser]
        exact Bool.false_ne_true
      obtain ⟨pieces', hflat, hstream⟩ := @head_run pieces { inReasoning := false } [] hnot
      rw [List.nil_append] at hflat
      rw [hstream]
      cases hi : find thinkStart pieces.flatten with
      | none =>
        rw [normal_run pieces' rfl (Or.inr (by rw [hflat]; exact hi)), hflat]
        unfold detectAndParse
        simp only [Bool.false_eq_true, if_false, hcloser, hi]
        rfl
      | some i =>
        obtain ⟨j, hbefore, hbehind⟩ := h i hi
        have hcut : pieces'.flatten =
            tools j ++ (thinkStart ++ pieces.flatten.drop (i + thinkStart.length)) := by
          rw [hflat, ← hbefore]
          exact find_split hi
        rw [detectAndParse_opened hcloser hi hbefore hbehind]
        exact opening_run pieces' rfl rfl (find_nil (by decide)) hcut hbehind

theorem kept_of_agrees {forceReasoning : Bool} {text : Text} (h : Agrees forceReasoning text) :
    (detectAndParse forceReasoning text).reasoningText ++
      (detectAndParse forceReasoning text).normalText = outside forceReasoning text := by
  unfold Agrees at h
  unfold outside
  cases forceReasoning with
  | true => exact readWhole_kept text
  | false =>
    rw [if_neg Bool.false_ne_true] at h ⊢
    cases hcloser : thinkEnd.isPrefixOf (lstrip text) with
    | true =>
      unfold detectAndParse
      simp [hcloser]
    | false =>
      rw [hcloser, if_neg Bool.false_ne_true] at h
      rw [if_neg Bool.false_ne_true]
      cases hi : find thinkStart text with
      | none =>
        unfold detectAndParse
        simp [hcloser, hi]
      | some i =>
        obtain ⟨j, hbefore, hbehind⟩ := h i hi
        rw [detectAndParse_opened hcloser hi hbefore hbehind, readWhole_kept]
        simp only
        rw [hbefore]
        rcases hbehind with ⟨rfl, -⟩ | ⟨-, hend⟩
        · rfl
        · unfold dropFirst
          rw [find_end_tools _ hend, hend]

/-- **The one-shot parse and the stream agree** on these texts, however they are cut. -/
theorem matches_of_agrees (forceReasoning : Bool) (text : Text) (h : Agrees forceReasoning text) :
    Matches forceReasoning text where
  stream pieces hflat := by
    rw [← hflat] at h ⊢
    exact stream_of_agrees h
  kept := kept_of_agrees h ▸ List.Perm.refl _

/-- A turn that begins with its reasoning. -/
theorem matches_of_agrees_thought : Matches false "<mm:think>r</mm:think>c".toList := by
  have hstart : find thinkStart "<mm:think>r</mm:think>c".toList = some 0 := by decide +kernel
  have hend : find thinkEnd "r</mm:think>c".toList = some 1 := by decide +kernel
  have hclean : Clean "r</mm:think>c".toList := by
    intro i hi
    rw [hend, Option.some.injEq] at hi
    subst hi
    refine ⟨by decide, fun t ht => ?_⟩
    rw [show find toolStart ("r</mm:think>c".toList.take 1) = none by decide +kernel] at ht
    cases ht
  refine matches_of_agrees false _ fun i hi => ⟨0, ?_⟩
  rw [hstart, Option.some.injEq] at hi
  subst hi
  exact ⟨rfl, Or.inl ⟨rfl, hclean⟩⟩

/-- **Prose in front of an opener** that comes in the same piece is streamed as reasoning. -/
theorem prose_mismatch : ¬Matches false "a<mm:think>r</mm:think>c".toList := by
  intro h
  have hstream := h.stream ["a<mm:think>r</mm:think>c".toList] rfl
  revert hstream
  decide +kernel

end MiniMaxM3

end FreeToken.Server
