import FreeToken.Lib.Buffered
import FreeToken.Server.ToolStream

/-!
# The drain loop over a detector

`FunctionCallParser.parse_stream_events` feeds a chunk to the detector and re-feeds
the empty text while the detector makes progress, sixteen rounds at most; an
increment of the detector stops at text behind a call, so that the order of text and
calls is kept. For a detector whose loop without that stop is incremental
(`Streams`), what the rounds of all chunks put out is a beginning of what the whole
text puts out (`chunks_run`), and nothing is missing exactly when the residual the
last chunk left has nothing to deliver (`agree_iff`).
-/

namespace FreeToken.Server

open FreeToken.Lib

/-! ## Detectors -/

/-- A detector's state, one iteration of its increment's loop (`called`: a call has been
put out already), and its end-of-stream residual. -/
structure StreamDetector (σ : Type) [Buffered Char σ] where
  fresh : σ
  step : (called : Bool) → σ → Iter σ (Out Part)
  size : σ → Nat
  shrinks : ∀ called s s' o, step called s = .next s' o → size s' < size s
  finish : σ → Text

def Part.isCall : Part → Bool
  | .text _ => false
  | .call _ => true

/-- Whether a call is among what has been put out. -/
def Out.hasCall (o : Out Part) : Bool :=
  WithTop.recTopCoe true (fun parts => parts.toList.any Part.isCall) o

@[simp] theorem Out.hasCall_ofList (parts : List Part) :
    Out.hasCall (Out.ofList parts) = parts.any Part.isCall := rfl

/-- The pieces, none when the code raises. -/
def Out.toOption {α : Type} (o : Out α) : Option (List α) :=
  WithTop.recTopCoe none (fun parts => some parts.toList) o

@[simp] theorem Out.toOption_ofList {α : Type} (l : List α) :
    Out.toOption (Out.ofList l) = some l := rfl

@[simp] theorem Out.toOption_top {α : Type} : Out.toOption (⊤ : Out α) = none := rfl

theorem Out.top_or_list {α : Type} (o : Out α) : o = ⊤ ∨ ∃ l, o = Out.ofList l := by
  cases o using WithTop.recTopCoe with
  | top => exact Or.inl rfl
  | coe a => exact Or.inr ⟨a.toList, rfl⟩

theorem Out.add_eq_ofList {α : Type} {a b : Out α} {l : List α} (h : a + b = Out.ofList l) :
    ∃ m n, a = Out.ofList m ∧ b = Out.ofList n ∧ m ++ n = l := by
  rcases Out.top_or_list a with rfl | ⟨m, rfl⟩
  · rw [WithTop.top_add] at h
    exact absurd h.symm WithTop.coe_ne_top
  rcases Out.top_or_list b with rfl | ⟨n, rfl⟩
  · rw [WithTop.add_top] at h
    exact absurd h.symm WithTop.coe_ne_top
  · rw [← Out.ofList_append] at h
    exact ⟨m, n, rfl, rfl, Out.ofList_injective h⟩

theorem Out.add_left_cancel_of_ne_top {α : Type} {a b c : Out α} (ha : a ≠ ⊤)
    (h : a + b = a + c) : b = c := by
  rcases Out.top_or_list a with rfl | ⟨l, rfl⟩
  · exact absurd rfl ha
  rcases Out.top_or_list b with rfl | ⟨m, rfl⟩
  · rcases Out.top_or_list c with rfl | ⟨k, rfl⟩
    · rfl
    · rw [WithTop.add_top, ← Out.ofList_append] at h
      exact absurd h.symm WithTop.coe_ne_top
  · rcases Out.top_or_list c with rfl | ⟨k, rfl⟩
    · rw [WithTop.add_top, ← Out.ofList_append] at h
      exact absurd h WithTop.coe_ne_top
    · rw [← Out.ofList_append, ← Out.ofList_append] at h
      rw [List.append_cancel_left (Out.ofList_injective h)]

/-- `"".join(normal_parts)`. -/
def partTexts (parts : List Part) : Text :=
  parts.flatMap fun | .text t => t | .call _ => []

def partCalls (parts : List Part) : List ToolCallItem :=
  parts.filterMap fun | .text _ => none | .call item => some item

/-- A segment of `parse_stream_events`. -/
inductive StreamSegment where
  | text (t : Text)
  | calls (items : List ToolCallItem)
deriving DecidableEq

def StreamSegment.events : StreamSegment → List Event
  | .text t => t.map .text
  | .calls items => items.flatMap ToolCallItem.events

def StreamingParseResult.segments (r : StreamingParseResult) : List StreamSegment :=
  (if r.normalText = [] then [] else [.text r.normalText]) ++
    (if r.calls = [] then [] else [.calls r.calls])

namespace StreamDetector

open Buffered

variable {σ : Type} [Buffered Char σ] (D : StreamDetector σ)

/-- The loop of one increment, with whether it has put out a call. -/
def incrementLoop : Loop (σ × Bool) (Out Part) where
  step s :=
    match D.step s.2 s.1 with
    | .next s' o => .next (s', s.2 || o.hasCall) o
    | .done s' o => .done (s', s.2 || o.hasCall) o
  size s := D.size s.1
  shrinks s s' o h := by
    cases hs : D.step s.2 s.1 with
    | next t o' =>
      simp only [hs, Iter.next.injEq] at h
      rw [← h.1]
      exact D.shrinks s.2 s.1 t o' hs
    | done t o' => simp [hs] at h

/-- `parse_streaming_increment`, none when it raises. -/
def increment (s : σ) (newText : Text) : σ × Option StreamingParseResult :=
  let r := D.incrementLoop.run (push s newText, false)
  (r.1.1, r.2.toOption.map fun parts => ⟨partTexts parts, partCalls parts⟩)

/-- The rounds of the drain loop that are left, the next one with `text`. -/
def drain : Nat → σ → Text → σ × Out StreamSegment
  | 0, s, _ => (s, 0)
  | rounds + 1, s, text =>
    match D.increment s text with
    | (s', none) => (s', ⊤)
    | (s', some r) =>
      if text = [] ∧ r.calls = [] ∧ r.normalText = [] then (s', 0)
      else
        let rest := drain rounds s' []
        (rest.1, Out.ofList r.segments + rest.2)

/-- `for _ in range(16)`. -/
def maxRounds : Nat := 16

def parseStreamEvents (tools : List Tool) (s : σ) (chunk : Text) : σ × Out StreamSegment :=
  if tools = [] then (s, Out.ofList (if chunk = [] then [] else [.text chunk]))
  else D.drain maxRounds s chunk

/-- The chunks one after the other. -/
def parseChunks (tools : List Tool) (s : σ) : List Text → σ × Out StreamSegment
  | [] => (s, 0)
  | chunk :: chunks =>
    let r := D.parseStreamEvents tools s chunk
    let r' := parseChunks tools r.1 chunks
    (r'.1, r.2 + r'.2)

/-- What the client gets of a text in chunks, the residual of `finish_stream` included. -/
def stream (tools : List Tool) (chunks : List Text) : Out Event :=
  let r := D.parseChunks tools D.fresh chunks
  Out.flatMap StreamSegment.events r.2 + Out.ofList ((D.finish r.1).map .text)

/-! ## Detectors that stream -/

/-- The loop of an increment without its stop at text behind a call. -/
def loop : Loop σ (Out Part) where
  step := D.step false
  size := D.size
  shrinks := D.shrinks false

def eventLoop : Loop σ (Out Event) := D.loop.mapOut (Out.flatMap Part.events)

/-- What is left to deliver from `s` on, without a bound on the rounds. -/
def rest (s : σ) : Out Event :=
  (D.eventLoop.run s).2 + Out.ofList ((D.finish (D.eventLoop.run s).1).map .text)

/-- `finish_stream` on the state is all that is left to deliver. -/
def Settled (s : σ) : Prop := D.rest s = Out.ofList ((D.finish s).map .text)

/-- A state that has nothing to do for now, or will not do it behind a call. -/
def Stopped (s : σ) : Prop := D.Settled s ∨ D.step true s = .done s 0

/-- What the drain loop relies on. -/
structure Streams (canon : σ → σ) : Prop where
  incremental : D.eventLoop.Incremental push canon
  finish_norm : ∀ s, D.finish (canon s) = D.finish s
  /-- After a call, an iteration is the same or it stops. -/
  defers : ∀ s, D.step true s = D.step false s ∨ D.step true s = .done s 0
  /-- An iteration puts out text or calls, after a call no text. -/
  kind : ∀ called s parts, (D.step called s).out = Out.ofList parts →
    (∀ p ∈ parts, p.isCall = true) ∨ (called = false ∧ ∀ p ∈ parts, p.isCall = false)
  /-- Stopping with something put out makes the state smaller. -/
  settles : ∀ called s s' o, D.step called s = .done s' o →
    D.size s' ≤ D.size s ∧ (D.size s' < D.size s ∨ o = 0 ∨ o = ⊤)

/-! ## One increment -/

variable {D}

/-- All texts of an increment are in front of its calls. -/
def Sorted (parts : List Part) : Prop :=
  ∃ texts calls, parts = texts ++ calls ∧ (∀ p ∈ texts, p.isCall = false) ∧
    ∀ p ∈ calls, p.isCall = true

theorem texts_events {parts : List Part} (h : ∀ p ∈ parts, p.isCall = false) :
    parts.flatMap Part.events = (partTexts parts).map Event.text ∧ partCalls parts = [] := by
  induction parts with
  | nil => exact ⟨rfl, rfl⟩
  | cons p parts ih =>
    obtain ⟨htexts, hcalls⟩ := ih fun q hq => h q (List.mem_cons_of_mem _ hq)
    cases p with
    | text t =>
      constructor
      · rw [List.flatMap_cons, htexts, show partTexts (.text t :: parts) = t ++ partTexts parts from
          List.flatMap_cons .., List.map_append]
        rfl
      · exact hcalls
    | call item =>
      have := h (.call item) List.mem_cons_self
      simp [Part.isCall] at this

theorem calls_events {parts : List Part} (h : ∀ p ∈ parts, p.isCall = true) :
    parts.flatMap Part.events = (partCalls parts).flatMap ToolCallItem.events ∧
      partTexts parts = [] := by
  induction parts with
  | nil => exact ⟨rfl, rfl⟩
  | cons p parts ih =>
    obtain ⟨hcalls, htexts⟩ := ih fun q hq => h q (List.mem_cons_of_mem _ hq)
    cases p with
    | text t =>
      have := h (.text t) List.mem_cons_self
      simp [Part.isCall] at this
    | call item =>
      constructor
      · rw [List.flatMap_cons, hcalls]
        rfl
      · exact htexts

/-- The segments of an increment carry its pieces in order. -/
theorem segments_events {parts : List Part} (h : Sorted parts) :
    ((⟨partTexts parts, partCalls parts⟩ : StreamingParseResult).segments).flatMap
        StreamSegment.events =
      parts.flatMap Part.events := by
  obtain ⟨texts, calls, rfl, htexts, hcalls⟩ := h
  obtain ⟨ht, ht'⟩ := texts_events htexts
  obtain ⟨hc, hc'⟩ := calls_events hcalls
  have h1 : partTexts (texts ++ calls) = partTexts texts := by
    rw [partTexts, List.flatMap_append]
    exact (congrArg (partTexts texts ++ ·) hc').trans (List.append_nil _)
  have h2 : partCalls (texts ++ calls) = partCalls calls := by
    rw [partCalls, List.filterMap_append]
    exact congrArg (· ++ partCalls calls) ht'
  rw [h1, h2, List.flatMap_append, ht, hc]
  simp only [StreamingParseResult.segments, List.flatMap_append]
  congr 1
  · by_cases hn : partTexts texts = []
    · rw [if_pos hn, hn]
      rfl
    · rw [if_neg hn]
      simp [StreamSegment.events]
  · by_cases hn : partCalls calls = []
    · rw [if_pos hn, hn]
      rfl
    · rw [if_neg hn]
      simp [StreamSegment.events]

namespace Streams

variable {canon : σ → σ} (H : D.Streams canon)

include H

/-- Stopping is final: the state a loop stops in has nothing more to put out. -/
theorem run_done {s s' : σ} {o : Out Part} (h : D.step false s = .done s' o) :
    Loop.Same canon (D.eventLoop.run s)
      ((D.eventLoop.run s').1, Out.flatMap Part.events o + (D.eventLoop.run s').2) := by
  have hr := H.incremental.resumes s []
  have hs : D.eventLoop.step s = .done s' (Out.flatMap Part.events o) := by
    simp only [eventLoop, Loop.mapOut, loop, h, Iter.mapOut]
  rw [hs] at hr
  simpa only [push_nil, Iter.state, Iter.out] using hr

/-- **An increment puts out a beginning of what its state has to deliver.** -/
theorem increment_run (s : σ) (called : Bool) :
    Loop.Same canon (D.eventLoop.run s)
      ((D.eventLoop.run (D.incrementLoop.run (s, called)).1.1).1,
        Out.flatMap Part.events (D.incrementLoop.run (s, called)).2 +
          (D.eventLoop.run (D.incrementLoop.run (s, called)).1.1).2) := by
  generalize hp : (s, called) = p
  induction p using D.incrementLoop.induct generalizing s called with
  | hdone p p' o hstep =>
    subst hp
    rw [Loop.run_done hstep]
    cases hs : D.step called s with
    | next t out => simp [incrementLoop, hs] at hstep
    | done t out =>
      simp only [incrementLoop, hs, Iter.done.injEq] at hstep
      obtain ⟨rfl, rfl⟩ := hstep
      cases called with
      | false => exact H.run_done hs
      | true =>
        rcases H.defers s with heq | hstop
        · exact H.run_done (heq ▸ hs)
        · rw [hstop, Iter.done.injEq] at hs
          obtain ⟨rfl, rfl⟩ := hs
          simp only [map_zero, zero_add]
          exact Loop.Same.refl _
  | hnext p p' o hstep ih =>
    subst hp
    rw [Loop.run_next hstep]
    cases hs : D.step called s with
    | done t out => simp [incrementLoop, hs] at hstep
    | next t out =>
      simp only [incrementLoop, hs, Iter.next.injEq] at hstep
      obtain ⟨rfl, rfl⟩ := hstep
      have hs0 : D.step false s = .next t out := by
        cases called with
        | false => exact hs
        | true =>
          rcases H.defers s with heq | hstop
          · rw [← heq, hs]
          · rw [hstop] at hs
            simp at hs
      have hE : D.eventLoop.step s = .next t (Out.flatMap Part.events out) := by
        simp only [eventLoop, Loop.mapOut, loop, hs0, Iter.mapOut]
      rw [Loop.run_next hE]
      have := (ih t (called || out.hasCall) rfl).add_left (Out.flatMap Part.events out)
      rwa [map_add, add_assoc]

/-- After a call an increment puts out calls only, before it texts come first. -/
theorem increment_sorted (s : σ) (called : Bool) {parts : List Part}
    (h : (D.incrementLoop.run (s, called)).2 = Out.ofList parts) :
    Sorted parts ∧ (called = true → ∀ p ∈ parts, p.isCall = true) := by
  generalize hp : (s, called) = p at h
  induction p using D.incrementLoop.induct generalizing s called parts with
  | hdone p p' o hstep =>
    subst hp
    rw [Loop.run_done hstep] at h
    have hout : (D.step called s).out = Out.ofList parts := by
      cases hs : D.step called s with
      | next t out => simp [incrementLoop, hs] at hstep
      | done t out =>
        simp only [incrementLoop, hs, Iter.done.injEq] at hstep
        rw [Iter.out, hstep.2]
        exact h
    rcases H.kind called s parts hout with hc | ⟨hf, ht⟩
    · exact ⟨⟨[], parts, rfl, by simp, hc⟩, fun _ => hc⟩
    · exact ⟨⟨parts, [], by simp, ht, by simp⟩, fun h => by simp [hf] at h⟩
  | hnext p p' o hstep ih =>
    subst hp
    rw [Loop.run_next hstep] at h
    cases hs : D.step called s with
    | done t out => simp [incrementLoop, hs] at hstep
    | next t out =>
      simp only [incrementLoop, hs, Iter.next.injEq] at hstep
      obtain ⟨rfl, rfl⟩ := hstep
      obtain ⟨l, l', rfl, hl', rfl⟩ := Out.add_eq_ofList h
      obtain ⟨hsorted, hcalled⟩ := ih t _ rfl hl'
      rcases H.kind called s l (by rw [hs]; rfl) with hc | ⟨rfl, ht⟩
      · cases l with
        | nil => exact ⟨hsorted, fun h => hcalled (by simp [h])⟩
        | cons q l =>
          have hall : ∀ p ∈ q :: l ++ l', p.isCall = true := by
            have hl'c := hcalled (by simp [hc q List.mem_cons_self])
            intro p hp
            rcases List.mem_append.mp hp with h | h
            · exact hc p h
            · exact hl'c p h
          exact ⟨⟨[], q :: l ++ l', rfl, by simp, hall⟩, fun _ => hall⟩
      · obtain ⟨texts, calls, rfl, htexts, hcalls⟩ := hsorted
        refine ⟨⟨l ++ texts, calls, by simp, fun p hp => ?_, hcalls⟩, fun h => by simp at h⟩
        rcases List.mem_append.mp hp with h | h
        · exact ht p h
        · exact htexts p h

/-! ## The drain loop -/

/-- The events of an increment, as its result carries them. -/
theorem increment_events (s : σ) (text : Text) :
    ((D.increment s text).2 = none ∧
      (D.incrementLoop.run (push s text, false)).2 = ⊤) ∨
    ∃ r, (D.increment s text).2 = some r ∧
      Out.flatMap Part.events (D.incrementLoop.run (push s text, false)).2 =
        Out.flatMap StreamSegment.events (Out.ofList r.segments) := by
  rcases Out.top_or_list (D.incrementLoop.run (push s text, false)).2 with h | ⟨parts, h⟩
  · exact Or.inl ⟨by rw [increment, h]; rfl, h⟩
  · refine Or.inr ⟨⟨partTexts parts, partCalls parts⟩, by rw [increment, h]; rfl, ?_⟩
    rw [h, Out.flatMap_ofList, Out.flatMap_ofList,
      segments_events (H.increment_sorted _ false h).1]

/-- The rounds put out a beginning of what their state has to deliver. -/
theorem drain_run (rounds : Nat) (s : σ) (text : Text) (h : rounds = 0 → text = []) :
    Loop.Same canon (D.eventLoop.run (push s text))
      ((D.eventLoop.run (D.drain rounds s text).1).1,
        Out.flatMap StreamSegment.events (D.drain rounds s text).2 +
          (D.eventLoop.run (D.drain rounds s text).1).2) := by
  induction rounds generalizing s text with
  | zero =>
    rw [h rfl, push_nil, drain, map_zero, zero_add]
    exact Loop.Same.refl _
  | succ rounds ih =>
    have hinc := H.increment_run (push s text) false
    have hfst : (D.increment s text).1 = (D.incrementLoop.run (push s text, false)).1.1 := rfl
    rw [← hfst] at hinc
    rw [drain]
    rcases H.increment_events s text with ⟨hnone, htop⟩ | ⟨r, hsome, hev⟩
    · rw [htop, Out.flatMap_top] at hinc
      rw [show D.increment s text = ((D.increment s text).1, none) from Prod.ext rfl hnone]
      exact hinc
    · rw [hev] at hinc
      rw [show D.increment s text = ((D.increment s text).1, some r) from Prod.ext rfl hsome]
      dsimp only
      split
      · rename_i hend
        have hsegs : r.segments = [] := by
          rw [StreamingParseResult.segments, if_pos hend.2.2, if_pos hend.2.1]
          rfl
        rw [hsegs] at hinc
        exact hinc
      · have hrest := ih (D.increment s text).1 [] (fun _ => rfl)
        rw [push_nil] at hrest
        have hall := hinc.trans (hrest.add_left _)
        rwa [← add_assoc, ← map_add] at hall

/-- More input behind a state and behind what its rounds left. -/
theorem drain_push (rounds : Nat) (s : σ) (text y : Text) (h : rounds = 0 → text = []) :
    Loop.Same canon (D.eventLoop.run (push (push s text) y))
      ((D.eventLoop.run (push (D.drain rounds s text).1 y)).1,
        Out.flatMap StreamSegment.events (D.drain rounds s text).2 +
          (D.eventLoop.run (push (D.drain rounds s text).1 y)).2) := by
  have hdrain := H.drain_run rounds s text h
  generalize push s text = x at hdrain
  generalize D.drain rounds s text = r at hdrain
  have hx := H.incremental.run_push x y
  have hr := H.incremental.run_push r.1 y
  have hmid := H.incremental.run_congr (H.incremental.push_congr hdrain.state y)
  have hxr := hmid.add_left (D.eventLoop.run x).2
  have hback := (hr.symm.add_left (Out.flatMap StreamSegment.events r.2))
  refine hx.trans (hxr.trans ?_)
  rw [hdrain.out]
  simpa only [add_assoc] using hback

/-- **The chunks put out a beginning of what the whole text puts out.** -/
theorem chunks_run {tools : List Tool} (ht : tools ≠ []) (s : σ) (chunks : List Text) :
    Loop.Same canon (D.eventLoop.run (push s chunks.flatten))
      ((D.eventLoop.run (D.parseChunks tools s chunks).1).1,
        Out.flatMap StreamSegment.events (D.parseChunks tools s chunks).2 +
          (D.eventLoop.run (D.parseChunks tools s chunks).1).2) := by
  induction chunks generalizing s with
  | nil =>
    rw [List.flatten_nil, push_nil, parseChunks, map_zero, zero_add]
    exact Loop.Same.refl _
  | cons chunk chunks ih =>
    have hfeed : D.parseStreamEvents tools s chunk = D.drain maxRounds s chunk := if_neg ht
    have hchunk := H.drain_push maxRounds s chunk chunks.flatten (by simp [maxRounds])
    have hrest := (ih (D.drain maxRounds s chunk).1).add_left
      (Out.flatMap StreamSegment.events (D.drain maxRounds s chunk).2)
    rw [List.flatten_cons, H.incremental.push_append, parseChunks, hfeed]
    have hall := hchunk.trans hrest
    simpa only [map_add, add_assoc] using hall

theorem rest_congr {s t : σ} {o : Out Event}
    (h : Loop.Same canon (D.eventLoop.run s) ((D.eventLoop.run t).1, o + (D.eventLoop.run t).2)) :
    D.rest s = o + D.rest t := by
  have hfin : D.finish (D.eventLoop.run s).1 = D.finish (D.eventLoop.run t).1 := by
    rw [← H.finish_norm, h.state, H.finish_norm]
  rw [rest, rest, hfin, h.out, add_assoc]

/-! ## What is not delivered -/

/-- What a text delivers, and what its chunks leave. -/
theorem rest_chunks {tools : List Tool} (ht : tools ≠ []) (chunks : List Text) :
    D.rest (push D.fresh chunks.flatten) =
      Out.flatMap StreamSegment.events (D.parseChunks tools D.fresh chunks).2 +
        D.rest (D.parseChunks tools D.fresh chunks).1 :=
  H.rest_congr (H.chunks_run ht D.fresh chunks)

/-- **The chunks deliver what the text does exactly when they raise or leave nothing
undelivered.** -/
theorem stream_eq_rest {tools : List Tool} (ht : tools ≠ []) (chunks : List Text) :
    D.stream tools chunks = D.rest (push D.fresh chunks.flatten) ↔
      (D.parseChunks tools D.fresh chunks).2 = ⊤ ∨
        Settled D (D.parseChunks tools D.fresh chunks).1 := by
  rw [H.rest_chunks ht, stream]
  generalize D.parseChunks tools D.fresh chunks = r
  constructor
  · intro h
    by_cases htop : r.2 = ⊤
    · exact Or.inl htop
    · refine Or.inr (Out.add_left_cancel_of_ne_top ?_ h).symm
      rcases Out.top_or_list r.2 with h0 | ⟨l, hl⟩
      · exact absurd h0 htop
      · rw [hl, Out.flatMap_ofList]
        exact WithTop.coe_ne_top
  · rintro (htop | hs)
    · rw [htop, Out.flatMap_top, WithTop.top_add, WithTop.top_add]
    · rw [hs]

/-! ## Feeding until nothing is left -/

omit H in
/-- The flag of an increment says whether it has put out a call. -/
theorem increment_called (s : σ) (called : Bool) {parts : List Part}
    (h : (D.incrementLoop.run (s, called)).2 = Out.ofList parts) :
    (D.incrementLoop.run (s, called)).1.2 = (called || parts.any Part.isCall) := by
  generalize hp : (s, called) = p at h ⊢
  induction p using D.incrementLoop.induct generalizing s called parts with
  | hdone p p' o hstep =>
    subst hp
    rw [Loop.run_done hstep] at h ⊢
    subst h
    cases hs : D.step called s with
    | next t out => simp [incrementLoop, hs] at hstep
    | done t out =>
      simp only [incrementLoop, hs, Iter.done.injEq] at hstep
      obtain ⟨rfl, rfl⟩ := hstep
      rfl
  | hnext p p' o hstep ih =>
    subst hp
    rw [Loop.run_next hstep] at h ⊢
    cases hs : D.step called s with
    | done t out => simp [incrementLoop, hs] at hstep
    | next t out =>
      simp only [incrementLoop, hs, Iter.next.injEq] at hstep
      obtain ⟨rfl, rfl⟩ := hstep
      obtain ⟨l, l', rfl, hl', rfl⟩ := Out.add_eq_ofList h
      rw [ih t _ rfl hl', Out.hasCall_ofList, List.any_append, Bool.or_assoc]

/-- An iteration that stops for want of input leaves a settled state. -/
theorem settled_of_done {s t : σ} {out : Out Part} (hs : D.step false s = .done t out)
    (htop : out ≠ ⊤) : Settled D t := by
  have hsame := H.run_done hs
  have hE : D.eventLoop.step s = .done t (Out.flatMap Part.events out) := by
    simp only [eventLoop, Loop.mapOut, loop, hs, Iter.mapOut]
  rw [Loop.run_done hE] at hsame
  have hne : Out.flatMap Part.events out ≠ ⊤ := by
    obtain ⟨l, rfl⟩ := (Out.top_or_list out).resolve_left htop
    rw [Out.flatMap_ofList]
    exact WithTop.coe_ne_top
  have hzero := Out.add_left_cancel_of_ne_top hne ((add_zero _).trans hsame.out)
  rw [Settled, rest, ← hzero, zero_add, ← H.finish_norm, ← hsame.state, H.finish_norm]

/-- An increment stops where its state settles, or defers the text behind a call. -/
theorem increment_stops (s : σ) (called : Bool)
    (htop : (D.incrementLoop.run (s, called)).2 ≠ ⊤) :
    Settled D (D.incrementLoop.run (s, called)).1.1 ∨
      ((D.incrementLoop.run (s, called)).1.2 = true ∧
        D.step true (D.incrementLoop.run (s, called)).1.1 =
          .done (D.incrementLoop.run (s, called)).1.1 0) := by
  generalize hp : (s, called) = p at htop ⊢
  induction p using D.incrementLoop.induct generalizing s called with
  | hdone p p' o hstep =>
    subst hp
    rw [Loop.run_done hstep] at htop ⊢
    cases hs : D.step called s with
    | next t out => simp [incrementLoop, hs] at hstep
    | done t out =>
      simp only [incrementLoop, hs, Iter.done.injEq] at hstep
      obtain ⟨rfl, rfl⟩ := hstep
      cases called with
      | false => exact Or.inl (H.settled_of_done hs htop)
      | true =>
        rcases H.defers s with heq | hstop
        · exact Or.inl (H.settled_of_done (heq ▸ hs) htop)
        · rw [hstop, Iter.done.injEq] at hs
          obtain ⟨rfl, rfl⟩ := hs
          exact Or.inr ⟨rfl, hstop⟩
  | hnext p p' o hstep ih =>
    subst hp
    rw [Loop.run_next hstep] at htop ⊢
    exact ih p'.1 p'.2 rfl fun h => htop (by rw [h, WithTop.add_top])

theorem increment_size (s : σ) (called : Bool) :
    D.size (D.incrementLoop.run (s, called)).1.1 ≤ D.size s ∧
      (D.size (D.incrementLoop.run (s, called)).1.1 < D.size s ∨
        (D.incrementLoop.run (s, called)).2 = 0 ∨ (D.incrementLoop.run (s, called)).2 = ⊤) := by
  generalize hp : (s, called) = p
  induction p using D.incrementLoop.induct generalizing s called with
  | hdone p p' o hstep =>
    subst hp
    rw [Loop.run_done hstep]
    cases hs : D.step called s with
    | next t out => simp [incrementLoop, hs] at hstep
    | done t out =>
      simp only [incrementLoop, hs, Iter.done.injEq] at hstep
      obtain ⟨rfl, rfl⟩ := hstep
      exact H.settles called s t out hs
  | hnext p p' o hstep ih =>
    subst hp
    rw [Loop.run_next hstep]
    cases hs : D.step called s with
    | done t out => simp [incrementLoop, hs] at hstep
    | next t out =>
      simp only [incrementLoop, hs, Iter.next.injEq] at hstep
      obtain ⟨rfl, rfl⟩ := hstep
      have hlt := D.shrinks called s t out hs
      have hle := (ih t (called || out.hasCall) rfl).1
      exact ⟨(Nat.lt_of_le_of_lt hle hlt).le, Or.inl (Nat.lt_of_le_of_lt hle hlt)⟩

/-- The rounds for an empty chunk raise, settle or get something done. -/
theorem drain_progress (rounds : Nat) (s : σ) :
    D.size (D.drain rounds s []).1 ≤ D.size s ∧
      (0 < rounds → (D.drain rounds s []).2 = ⊤ ∨ Settled D (D.drain rounds s []).1 ∨
        D.size (D.drain rounds s []).1 < D.size s) := by
  induction rounds generalizing s with
  | zero => exact ⟨Nat.le_refl _, fun h => absurd h (Nat.lt_irrefl 0)⟩
  | succ rounds ih =>
    have hsize := H.increment_size s false
    have hinc : D.increment s [] = (((D.incrementLoop.run (s, false)).1.1),
        (D.incrementLoop.run (s, false)).2.toOption.map fun parts =>
          ⟨partTexts parts, partCalls parts⟩) := by
      rw [increment, push_nil]
    rcases Out.top_or_list (D.incrementLoop.run (s, false)).2 with htop | ⟨parts, hparts⟩
    · rw [drain, hinc, htop]
      exact ⟨hsize.1, fun _ => Or.inl rfl⟩
    · have hcalled := increment_called s false hparts
      rw [drain, hinc, hparts]
      simp only [Out.toOption_ofList, Option.map_some, true_and]
      split
      · rename_i hend
        have hquiet : (D.incrementLoop.run (s, false)).1.2 = false := by
          rw [hcalled, Bool.false_or, List.any_eq_false]
          intro p hp hcall
          cases p with
          | text t => simp [Part.isCall] at hcall
          | call item =>
            have : item ∈ partCalls parts := List.mem_filterMap.mpr ⟨_, hp, rfl⟩
            rw [hend.1] at this
            simp at this
        rcases H.increment_stops s false (by rw [hparts]; exact WithTop.coe_ne_top) with h | h
        · exact ⟨hsize.1, fun _ => Or.inr (Or.inl h)⟩
        · simp [hquiet] at h
      · rename_i hend
        have hlt : D.size (D.incrementLoop.run (s, false)).1.1 < D.size s := by
          rcases hsize.2 with h | h | h
          · exact h
          · rw [hparts] at h
            obtain rfl : parts = [] := Out.ofList_injective (h.trans Out.ofList_nil.symm)
            exact absurd ⟨rfl, rfl⟩ hend
          · rw [hparts] at h
            exact absurd h WithTop.coe_ne_top
        have hle := (ih (D.incrementLoop.run (s, false)).1.1).1
        exact ⟨(Nat.lt_of_le_of_lt hle hlt).le,
          fun _ => Or.inr (Or.inr (Nat.lt_of_le_of_lt hle hlt))⟩

theorem drain_stops (rounds : Nat) (s : σ) (text : Text) (h : rounds = 0 → Stopped D s)
    (htop : (D.drain rounds s text).2 ≠ ⊤) : Stopped D (D.drain rounds s text).1 := by
  induction rounds generalizing s text with
  | zero => exact h rfl
  | succ rounds ih =>
    have hstop : (D.increment s text).2 ≠ none → Stopped D (D.increment s text).1 := by
      intro hne
      have hout : (D.incrementLoop.run (push s text, false)).2 ≠ ⊤ := by
        intro htop
        exact hne (by rw [increment, htop]; rfl)
      exact (H.increment_stops _ false hout).imp id And.right
    rw [drain] at htop ⊢
    generalize D.increment s text = r at hstop htop ⊢
    obtain ⟨s', r⟩ := r
    cases r with
    | none => exact absurd rfl htop
    | some r =>
      dsimp only at htop ⊢
      split
      · exact hstop (Option.some_ne_none r)
      · rename_i hend
        rw [if_neg hend] at htop
        exact ih s' [] (fun _ => hstop (Option.some_ne_none r))
          fun h => htop (by rw [h, WithTop.add_top])

theorem parseChunks_stops {tools : List Tool} (ht : tools ≠ []) (s : σ) (chunks : List Text)
    (hs : Stopped D s) (htop : (D.parseChunks tools s chunks).2 ≠ ⊤) :
    Stopped D (D.parseChunks tools s chunks).1 := by
  induction chunks generalizing s with
  | nil => exact hs
  | cons chunk chunks ih =>
    have hfeed : D.parseStreamEvents tools s chunk = D.drain maxRounds s chunk := if_neg ht
    rw [parseChunks, hfeed] at htop ⊢
    have hdrain := H.drain_stops maxRounds s chunk (by simp [maxRounds])
      fun h => htop (by rw [h, WithTop.top_add])
    exact ih _ hdrain fun h => htop (by rw [h, WithTop.add_top])

omit H in
theorem parseChunks_append (tools : List Tool) (s : σ) (a b : List Text) :
    D.parseChunks tools s (a ++ b) =
      ((D.parseChunks tools (D.parseChunks tools s a).1 b).1,
        (D.parseChunks tools s a).2 + (D.parseChunks tools (D.parseChunks tools s a).1 b).2) := by
  induction a generalizing s with
  | nil => simp [parseChunks]
  | cons x a ih => simp only [List.cons_append, parseChunks, ih, add_assoc]

/-- Enough empty chunks deliver everything. -/
theorem settles_with_empty {tools : List Tool} (ht : tools ≠ []) (s : σ) :
    ∃ k, (D.parseChunks tools s (List.replicate k [])).2 = ⊤ ∨
      Settled D (D.parseChunks tools s (List.replicate k [])).1 := by
  induction hn : D.size s using Nat.strongRecOn generalizing s with
  | ind n ih =>
    have hfeed : D.parseStreamEvents tools s [] = D.drain maxRounds s [] := if_neg ht
    have hone : ∀ k, D.parseChunks tools s (List.replicate (k + 1) []) =
        ((D.parseChunks tools (D.drain maxRounds s []).1 (List.replicate k [])).1,
          (D.drain maxRounds s []).2 +
            (D.parseChunks tools (D.drain maxRounds s []).1 (List.replicate k [])).2) := by
      intro k
      rw [List.replicate_succ, parseChunks, hfeed]
    rcases (H.drain_progress maxRounds s).2 (by simp [maxRounds]) with htop | hset | hlt
    · exact ⟨1, Or.inl (by rw [hone, htop, WithTop.top_add])⟩
    · exact ⟨1, Or.inr (by rw [hone]; exact hset)⟩
    · obtain ⟨k, hk⟩ := ih _ (by omega) (D.drain maxRounds s []).1 rfl
      refine ⟨k + 1, ?_⟩
      rw [hone]
      rcases hk with h | h
      · exact Or.inl (by rw [h, WithTop.add_top])
      · exact Or.inr h

/-- **All partitions of a text stream alike exactly when each raises or leaves nothing
undelivered.** -/
theorem agree_iff {tools : List Tool} (ht : tools ≠ []) (text : Text) :
    (∀ c c' : List Text, c.flatten = text → c'.flatten = text →
      D.stream tools c = D.stream tools c') ↔
    ∀ c : List Text, c.flatten = text → (D.parseChunks tools D.fresh c).2 = ⊤ ∨
      Settled D (D.parseChunks tools D.fresh c).1 := by
  constructor
  · intro h c hc
    obtain ⟨k, hk⟩ := H.settles_with_empty ht (D.parseChunks tools D.fresh c).1
    have hflat : (c ++ List.replicate k []).flatten = text := by simp [hc]
    have hmore : (D.parseChunks tools D.fresh (c ++ List.replicate k [])).2 = ⊤ ∨
        Settled D (D.parseChunks tools D.fresh (c ++ List.replicate k [])).1 := by
      rw [parseChunks_append]
      rcases hk with hk | hk
      · exact Or.inl (by rw [hk, WithTop.add_top])
      · exact Or.inr hk
    have hrest := (H.stream_eq_rest ht _).mpr hmore
    rw [hflat, ← hc, ← h c _ hc hflat] at hrest
    exact (H.stream_eq_rest ht c).mp hrest
  · intro h c c' hc hc'
    rw [(H.stream_eq_rest ht c).mpr (h c hc), (H.stream_eq_rest ht c').mpr (h c' hc'), hc, hc']

end Streams

end StreamDetector

end FreeToken.Server
