import FreeToken.Server.InvokeStream
import FreeToken.Server.Glm47Stream

/-!
# Tool calls streamed in chunks

What a state that has stopped still holds (`Undelivered`), for the three detectors that
stream values, and with it when the chunks a text comes in make no difference.
-/

namespace FreeToken.Server

open FreeToken.Lib Buffered

/-! ## Text outside blocks -/

section Idle

variable {σ : Type} [Calling σ] {D : StreamDetector σ} {s : σ} {opn : Text} {enter : σ → σ}

/-- What is held back for a token is a beginning of it. -/
theorem held_eq_take (opn text : Text) :
    ∃ k, (k = 0 ∨ k < opn.length) ∧
      text.drop (text.length - endsWithPartial opn text) = opn.take k := by
  rcases endsWithPartial_spec opn text with ⟨h, -⟩ | ⟨-, hlt, hle, hpre⟩
  · exact ⟨0, Or.inl rfl, by rw [h, Nat.sub_zero, List.drop_length, List.take_zero]⟩
  · refine ⟨endsWithPartial opn text, Or.inr hlt, ?_⟩
    have heq := List.prefix_iff_eq_take.mp hpre
    rwa [List.length_drop, Nat.sub_sub_self hle] at heq

theorem not_contains_take {opn : Text} (ho : Headed opn) {k : Nat} (hk : k = 0 ∨ k < opn.length) :
    contains opn (opn.take k) = false := by
  have hpos : 0 < opn.length := by
    obtain ⟨c, rest, rfl, -⟩ := ho
    exact Nat.succ_pos _
  rw [contains]
  cases hf : find opn (opn.take k) with
  | none => rfl
  | some i =>
    have hle := find_add_length_le hf
    rw [List.length_take] at hle
    omega

/-- Without an opener all of the buffer is text. -/
theorem rest_of_text (hstep : D.step false s = readText opn enter s)
    (hnone : contains opn (buffer s) = false)
    (hfin : ∀ k, k = 0 ∨ k < opn.length → D.finish (setBuffer s (opn.take k)) = opn.take k) :
    D.rest s = Out.ofList ((buffer s).map .text) := by
  have hf : find opn (buffer s) = none := by
    rw [contains] at hnone
    simpa using hnone
  obtain ⟨k, hk, hheld⟩ := held_eq_take opn (buffer s)
  simp only [readText, hf, keep] at hstep
  rw [StreamDetector.rest, run_of_done hstep, textPart_events, hheld, hfin k hk, ← hheld,
    ← Out.ofList_append, ← List.map_append, List.take_append_drop]

/-- A state that has stopped outside of blocks has delivered its buffer when
`finish_streaming` returns it, or when it starts a block that puts out nothing. -/
theorem settled_idle_iff (hstep : D.step false s = readText opn enter s)
    (hfin : ∀ k, k = 0 ∨ k < opn.length → D.finish (setBuffer s (opn.take k)) = opn.take k)
    (hopen : contains opn (buffer s) = true → D.finish s = []) :
    D.Settled s ↔
      ¬if contains opn (buffer s) then D.rest s ≠ 0 else D.finish s ≠ buffer s := by
  rw [StreamDetector.Settled]
  cases hc : contains opn (buffer s) with
  | true =>
    rw [hopen hc, if_pos rfl, not_not]
    exact Iff.rfl
  | false =>
    rw [rest_of_text hstep hc hfin, if_neg Bool.false_ne_true, not_not]
    constructor
    · intro h
      have := Out.ofList_injective h
      exact (List.map_injective_iff.mpr (fun _ _ h => Event.text.inj h) this).symm
    · intro h
      rw [h]

end Idle

/-! ## What the detectors have not delivered -/

namespace InvokeDetector

variable (env : Env) (g : InvokeGrammar) (tools : List Tool)

/-- Outside of blocks the buffer holds text that `finish_streaming` does not return, or
a block that puts something out. -/
def Undelivered (d : InvokeDetector) : Prop :=
  d.psMode = .idle ∧
    if contains g.outerOpen d.buffer then (detector env g tools).rest d ≠ 0
    else finishStreaming g d ≠ d.buffer

variable {env g tools} {d : InvokeDetector}

theorem finishStreaming_take (hspace : ∀ k < g.outerOpen.length,
      strip (g.outerOpen.take k) = [] → g.outerOpen.take k = [])
    (hm : d.psMode = .idle) {k : Nat} (hk : k = 0 ∨ k < g.outerOpen.length) :
    finishStreaming g (setBuffer d (g.outerOpen.take k)) = g.outerOpen.take k := by
  have hopen := not_contains_take (g.headed g.outerOpen (by simp)) hk
  have hmode : (setBuffer d (g.outerOpen.take k)).psMode = .idle := hm
  have hbuf : (setBuffer d (g.outerOpen.take k)).buffer = g.outerOpen.take k := rfl
  rw [finishStreaming, hmode, hbuf, hopen]
  simp only [bne_self_eq_false, Bool.or_self, Bool.false_eq_true, if_false]
  split
  · rename_i hblank
    rcases hk with rfl | hk
    · rfl
    · exact (hspace k hk hblank.2).symm
  · rfl

theorem settled_iff (hspace : ∀ k < g.outerOpen.length,
      strip (g.outerOpen.take k) = [] → g.outerOpen.take k = [])
    (hstop : (detector env g tools).Stopped d) :
    (detector env g tools).Settled d ↔ ¬Undelivered env g tools d := by
  by_cases hm : d.psMode = .idle
  · have hstep : (detector env g tools).step false d = readText g.outerOpen enterBlock d :=
      step_idle hm d.buffer
    have hopen : contains g.outerOpen d.buffer = true → finishStreaming g d = [] :=
      fun h => if_pos (by rw [h, Bool.or_true])
    rw [settled_idle_iff hstep (fun k => finishStreaming_take hspace hm) hopen, Undelivered,
      and_iff_right hm]
    rfl
  · refine iff_of_true ?_ fun h => hm h.1
    rcases hstop with h | h
    · exact h
    · have hstep : (detector env g tools).step false d = .done d 0 := by
        rw [← h]
        exact (step_called hm).symm
      exact detector_streams.settled_of_done hstep WithTop.zero_ne_top

end InvokeDetector

namespace Glm47Detector

variable (env : Env) (tools : List Tool)

/-- Outside of blocks the buffer holds text that `finish_streaming` does not return, or
a block that puts something out. -/
def Undelivered (d : Glm47Detector) : Prop :=
  d.gMode = .idle ∧
    if contains botToken d.buffer then (detector env tools).rest d ≠ 0
    else finishStreaming d ≠ d.buffer

variable {env tools} {d : Glm47Detector}

theorem finishStreaming_take (hm : d.gMode = .idle) {k : Nat} (hk : k = 0 ∨ k < botToken.length) :
    finishStreaming (setBuffer d (botToken.take k)) = botToken.take k := by
  have hopen := not_contains_take (headed botToken (by simp)) hk
  have hmode : (setBuffer d (botToken.take k)).gMode = .idle := hm
  have hbuf : (setBuffer d (botToken.take k)).buffer = botToken.take k := rfl
  have hkeep : ∀ k < botToken.length, removeAll eotToken 0 (botToken.take k) = botToken.take k ∧
      (strip (botToken.take k) = [] → botToken.take k = []) := by decide
  have hlt : k < botToken.length := by
    rcases hk with rfl | hk
    · decide
    · exact hk
  obtain ⟨hremove, hblank⟩ := hkeep k hlt
  simp only [finishStreaming, hmode, hbuf, hopen, hremove, bne_self_eq_false, Bool.or_self,
    Bool.false_eq_true, if_false]
  split
  · rename_i h
    exact (hblank h.2).symm
  · rfl

theorem settled_iff (hstop : (detector env tools).Stopped d) :
    (detector env tools).Settled d ↔ ¬Undelivered env tools d := by
  by_cases hm : d.gMode = .idle
  · have hstep : (detector env tools).step false d = readText botToken enterName d :=
      step_idle hm d.buffer
    have hopen : contains botToken d.buffer = true → finishStreaming d = [] :=
      fun h => if_pos (by rw [h, Bool.or_true])
    rw [settled_idle_iff hstep (fun k => finishStreaming_take hm) hopen, Undelivered,
      and_iff_right hm]
    rfl
  · refine iff_of_true ?_ fun h => hm h.1
    rcases hstop with h | h
    · exact h
    · have hstep : (detector env tools).step false d = .done d 0 := by
        rw [← h]
        exact (step_called hm).symm
      exact detector_streams.settled_of_done hstep WithTop.zero_ne_top

end Glm47Detector

/-! ## The parsers -/

/-- The detectors that stream values, under the names of `ToolCallParserEnum`. -/
inductive ToolCallParser where
  | qwen3Coder
  | minimax
  | glm47

/-- The grammar of an invoke detector, none for GLM-4.7. -/
def ToolCallParser.grammar : ToolCallParser → Option InvokeGrammar
  | .qwen3Coder => some FreeToken.Server.qwen3Coder
  | .minimax => some miniMax
  | .glm47 => none

namespace ToolCallParser

variable (env : Env) (tools : List Tool)

/-- What `parse_stream_events` over the chunks and `finish_stream` put out. -/
def stream (parser : ToolCallParser) (chunks : List Text) : Out Event :=
  match parser.grammar with
  | some g => (InvokeDetector.detector env g tools).stream tools chunks
  | none => (Glm47Detector.detector env tools).stream tools chunks

/-- Whether feeding the chunks raises. -/
def Raises (parser : ToolCallParser) (chunks : List Text) : Prop :=
  match parser.grammar with
  | some g => ((InvokeDetector.detector env g tools).parseChunks tools {} chunks).2 = ⊤
  | none => ((Glm47Detector.detector env tools).parseChunks tools {} chunks).2 = ⊤

/-- Whether the chunks leave the detector with something that `finish_stream` does not
return. -/
def LeavesUndelivered (parser : ToolCallParser) (chunks : List Text) : Prop :=
  match parser.grammar with
  | some g =>
    InvokeDetector.Undelivered env g tools
      ((InvokeDetector.detector env g tools).parseChunks tools {} chunks).1
  | none =>
    Glm47Detector.Undelivered env tools
      ((Glm47Detector.detector env tools).parseChunks tools {} chunks).1

variable {env tools}

theorem grammar_space {parser : ToolCallParser} {g : InvokeGrammar} (h : parser.grammar = some g) :
    ∀ k < g.outerOpen.length, strip (g.outerOpen.take k) = [] → g.outerOpen.take k = [] := by
  cases parser with
  | qwen3Coder =>
    simp only [grammar, Option.some.injEq] at h
    subst h
    decide
  | minimax =>
    simp only [grammar, Option.some.injEq] at h
    subst h
    decide
  | glm47 => simp [grammar] at h

/-- Without tools the chunks are text. -/
theorem parseChunks_of_no_tools {σ : Type} [Buffered Char σ] (D : StreamDetector σ) (s : σ)
    (chunks : List Text) :
    (D.parseChunks [] s chunks).1 = s ∧
      Out.flatMap StreamSegment.events (D.parseChunks [] s chunks).2 =
        Out.ofList (chunks.flatten.map Event.text) := by
  induction chunks with
  | nil => exact ⟨rfl, rfl⟩
  | cons chunk chunks ih =>
    refine ⟨ih.1, ?_⟩
    have hfeed : D.parseStreamEvents [] s chunk =
        (s, Out.ofList (if chunk = [] then [] else [.text chunk])) := if_pos rfl
    rw [StreamDetector.parseChunks, hfeed]
    simp only [map_add, ih.2, Out.flatMap_ofList, List.flatten_cons, List.map_append,
      Out.ofList_append]
    congr 1
    by_cases h : chunk = []
    · simp [h]
    · simp [h, StreamSegment.events]

theorem stream_of_no_tools {parser : ToolCallParser} (htools : tools = []) {c c' : List Text}
    (h : c.flatten = c'.flatten) : stream env tools parser c = stream env tools parser c' := by
  subst htools
  unfold stream
  cases parser.grammar with
  | some g =>
    simp only [StreamDetector.stream, (parseChunks_of_no_tools (InvokeDetector.detector env g []) _ _).1,
      (parseChunks_of_no_tools (InvokeDetector.detector env g []) _ _).2, h]
  | none =>
    simp only [StreamDetector.stream, (parseChunks_of_no_tools (Glm47Detector.detector env []) _ _).1,
      (parseChunks_of_no_tools (Glm47Detector.detector env []) _ _).2, h]

/-- **All ways of cutting a text into chunks stream the same text and calls exactly when
there are no tools, or when each of them raises or leaves nothing undelivered.** -/
theorem chunks_agree_iff (env : Env) (tools : List Tool) (parser : ToolCallParser) (text : Text) :
    (∀ c c' : List Text, c.flatten = text → c'.flatten = text →
      stream env tools parser c = stream env tools parser c') ↔
    tools = [] ∨ ∀ c : List Text, c.flatten = text →
      Raises env tools parser c ∨ ¬LeavesUndelivered env tools parser c := by
  by_cases ht : tools = []
  · exact iff_of_true (fun c c' hc hc' => stream_of_no_tools ht (hc.trans hc'.symm)) (Or.inl ht)
  · rw [or_iff_right ht]
    unfold stream Raises LeavesUndelivered
    cases hg : parser.grammar with
    | some g =>
      have H := @InvokeDetector.detector_streams env g tools
      rw [H.agree_iff ht]
      refine forall_congr' fun c => imp_congr_right fun _ => or_congr_right' fun htop => ?_
      exact InvokeDetector.settled_iff (grammar_space hg)
        (H.parseChunks_stops ht _ c (Or.inr rfl) htop)
    | none =>
      have H := @Glm47Detector.detector_streams env tools
      rw [H.agree_iff ht]
      refine forall_congr' fun c => imp_congr_right fun _ => or_congr_right' fun htop => ?_
      exact Glm47Detector.settled_iff (H.parseChunks_stops ht _ c (Or.inr rfl) htop)

/-! ### Seventeen blocks -/

/-- Python's functions where the blocks below use them. -/
def plainEnv : Env where
  lower := List.map Char.toLower
  str _ := []
  int _ := none
  float _ := none
  loads text := if text = ['{', '}'] then some (.object []) else none
  literalEval _ := none
  forwardUnknownTools := false

/-- One call without arguments. -/
def plainBlock : Text := "<tool_call>f</tool_call>".toList

/-- Seventeen blocks in one chunk lose the last call, which a chunk of its own keeps. -/
theorem seventeen_blocks_disagree :
    ¬∀ (env : Env) (tools : List Tool) (parser : ToolCallParser) (c c' : List Text),
      c.flatten = c'.flatten → stream env tools parser c = stream env tools parser c' := by
  intro h
  have heq := h plainEnv [{ name := ['f'] }] .glm47 [(List.replicate 17 plainBlock).flatten]
    [(List.replicate 16 plainBlock).flatten, plainBlock] (by decide +kernel)
  have hlen := congrArg (fun o => (Out.toOption o).map List.length) heq
  revert hlen
  decide +kernel

end ToolCallParser

end FreeToken.Server
