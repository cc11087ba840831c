import FreeToken.Lib.Incremental
import FreeToken.Server.Types

/-!
# The Harmony reasoning parser

`GptOssHarmonyReasoningParser` of `server/reasoning_parser.py`. Every increment
scans the whole buffer again (`scan` with `hold_partial`) and emits what the scan
has grown by; `flush` does the same without holding a partial marker back.

* `scan_prefix` — the scan of a text is a prefix of the scan of every extension,
  when no tool block of the extension is closed by the opener of the next segment.
* `harmony_streams_scan` — exactly for those texts every chunking streams the
  one-shot scan.
-/

namespace FreeToken.Server.Harmony

open FreeToken.Lib

def harmonyChannel : Text := "<|channel|>".toList

def harmonyMessage : Text := "<|message|>".toList

/-- Tokens that bound a Harmony channel segment's body. -/
def boundaryTokens : List Text :=
  ["<|end|>".toList, "<|return|>".toList, "<|call|>".toList, "<|start|>".toList,
    "<|channel|>".toList]

def allTokens : List Text := harmonyChannel :: harmonyMessage :: boundaryTokens

/-- Boundary tokens that close a segment and belong to it. -/
def closingBoundaryTokens : List Text :=
  ["<|end|>".toList, "<|return|>".toList, "<|call|>".toList]

theorem boundary_markers : Markers '<' boundaryTokens := by decide

/-! ## The scan -/

/-- `_segment_end`: the end of a body and the boundary found there. -/
def segmentEnd (body : Text) : Nat × Option Text :=
  match earliest boundaryTokens body with
  | none => (body.length, none)
  | some (pos, tok) => (pos, some tok)

/-- One round of the scan: the header and body of the next segment, and the
boundary that ended it (`none` for the segment still streaming). -/
structure Segment where
  header : Text
  body : Text
  stop : Option Text
deriving DecidableEq

namespace Segment

def channel (seg : Segment) : Text := firstWord seg.header

def isTool (seg : Segment) : Bool :=
  seg.channel == "commentary".toList && contains "to=functions".toList seg.header

/-- The block with its markers; a closing terminator belongs to it, an opener of
the next segment does not. -/
def verbatim (seg : Segment) : Text :=
  harmonyChannel ++ (seg.header ++ (harmonyMessage ++ (seg.body ++
    match seg.stop with
    | some tok => if tok ∈ closingBoundaryTokens then tok else []
    | none => [])))

/-- The body that may be emitted: the last segment holds a partial marker back. -/
def released (seg : Segment) (holdPartial : Bool) : Text :=
  if seg.stop.isNone && holdPartial then
    seg.body.take (seg.body.length - partialSuffix allTokens seg.body)
  else seg.body

def emit (seg : Segment) (holdPartial : Bool) : ReasoningParseResult :=
  if seg.isTool then ⟨[], seg.verbatim⟩
  else if seg.channel == "analysis".toList then ⟨seg.released holdPartial, []⟩
  else ⟨[], seg.released holdPartial⟩

end Segment

/-- The header of the next segment of `text`, and the text from its body on. -/
def headerOf (text : Text) : Option (Text × Text) :=
  match find harmonyChannel text with
  | none => none
  | some ch =>
    let rest := text.drop (ch + harmonyChannel.length)
    match find harmonyMessage rest with
    | none => none
    | some msg => some (rest.take msg, rest.drop (msg + harmonyMessage.length))

/-- The segment with this header, and the text from its boundary on. -/
def segmentAt (header bodyOn : Text) : Segment × Text :=
  let (stop, tok) := segmentEnd bodyOn
  (⟨header, bodyOn.take stop, tok⟩, bodyOn.drop stop)

@[simp] theorem segmentAt_header (header bodyOn : Text) :
    (segmentAt header bodyOn).1.header = header := rfl

@[simp] theorem segmentAt_stop (header bodyOn : Text) :
    (segmentAt header bodyOn).1.stop = (segmentEnd bodyOn).2 := rfl

@[simp] theorem segmentAt_body (header bodyOn : Text) :
    (segmentAt header bodyOn).1.body = bodyOn.take (segmentEnd bodyOn).1 := rfl

def nextSegment (text : Text) : Option (Segment × Text) :=
  (headerOf text).map fun r => segmentAt r.1 r.2

theorem nextSegment_eq {text rest : Text} {seg : Segment}
    (h : nextSegment text = some (seg, rest)) :
    ∃ header bodyOn, headerOf text = some (header, bodyOn) ∧
      seg = (segmentAt header bodyOn).1 ∧ rest = bodyOn.drop (segmentEnd bodyOn).1 := by
  rw [nextSegment, Option.map_eq_some_iff] at h
  obtain ⟨⟨header, bodyOn⟩, hh, hs⟩ := h
  exact ⟨header, bodyOn, hh, (congrArg Prod.fst hs).symm, (congrArg Prod.snd hs).symm⟩

theorem nextSegment_of_header {text header bodyOn : Text}
    (h : headerOf text = some (header, bodyOn)) :
    nextSegment text =
      some ((segmentAt header bodyOn).1, bodyOn.drop (segmentEnd bodyOn).1) := by
  rw [nextSegment, h, Option.map_some]
  rfl

def scanStep (holdPartial : Bool) (text : Text) : Iter Text ReasoningParseResult :=
  match nextSegment text with
  | none => .done text 0
  | some (seg, rest) =>
    if seg.stop.isSome then .next rest (seg.emit holdPartial)
    else .done rest (seg.emit holdPartial)

theorem headerOf_split {text header bodyOn : Text} (h : headerOf text = some (header, bodyOn)) :
    ∃ pre, text = pre ++ bodyOn ∧ 22 ≤ pre.length ∧
      ∀ b, headerOf (pre ++ b) = some (header, b) := by
  rw [headerOf] at h
  cases hch : find harmonyChannel text with
  | none => simp [hch] at h
  | some ch =>
    cases hmsg : find harmonyMessage (text.drop (ch + harmonyChannel.length)) with
    | none => simp [hch, hmsg] at h
    | some msg =>
      simp only [hch, hmsg, Option.some.injEq, Prod.mk.injEq] at h
      obtain ⟨rfl, rfl⟩ := h
      have hc : harmonyChannel.length = 11 := rfl
      have hm : harmonyMessage.length = 11 := rfl
      have hclen := find_add_length_le hch
      have hmlen := find_add_length_le hmsg
      rw [List.length_drop] at hmlen
      refine ⟨text.take (ch + 11 + (msg + 11)), ?_, ?_, fun b => ?_⟩
      · rw [hc, hm, List.drop_drop, List.take_append_drop]
      · rw [List.length_take]
        omega
      · have hch' := find_append (find_take hch (n := ch + 11 + (msg + 11)) (by omega)) b
        have hdrop : (text.take (ch + 11 + (msg + 11)) ++ b).drop (ch + 11) =
            (text.drop (ch + 11)).take (msg + 11) ++ b := by
          rw [List.drop_append_of_le_length (by rw [List.length_take]; omega), List.drop_take]
          congr 2
          omega
        rw [hc] at hmsg
        have hmsg' := find_append (find_take hmsg (n := msg + 11) (by omega)) b
        have hlen : ((text.drop (ch + 11)).take (msg + 11)).length = msg + 11 := by
          rw [List.length_take, List.length_drop]
          omega
        simp only [headerOf, hch', hc, hm, hdrop, hmsg', Option.some.injEq, Prod.mk.injEq]
        constructor
        · rw [List.take_append_of_le_length (by omega), List.take_take]
          congr 1
          omega
        · rw [List.drop_append_of_le_length (by omega), List.drop_eq_nil_of_le (by omega)]
          rfl

theorem segmentEnd_le (bodyOn : Text) : (segmentEnd bodyOn).1 ≤ bodyOn.length := by
  rw [segmentEnd]
  have h := earliest_spec boundaryTokens bodyOn
  cases he : earliest boundaryTokens bodyOn with
  | none => exact Nat.le_refl _
  | some best =>
    rw [he] at h
    have := find_add_length_le h.2.1
    dsimp only
    omega

theorem nextSegment_shrinks {text rest : Text} {seg : Segment}
    (h : nextSegment text = some (seg, rest)) : rest.length < text.length := by
  obtain ⟨header, bodyOn, hh, -, rfl⟩ := nextSegment_eq h
  obtain ⟨pre, htext, hpre, -⟩ := headerOf_split hh
  rw [htext, List.length_append, List.length_drop]
  omega

def scanLoop (holdPartial : Bool) : Loop Text ReasoningParseResult where
  step := scanStep holdPartial
  size := List.length
  shrinks := by
    intro text rest out h
    rw [scanStep] at h
    cases hn : nextSegment text with
    | none => simp [hn] at h
    | some p =>
      obtain ⟨seg, rest'⟩ := p
      rw [hn] at h
      dsimp only at h
      split at h
      · simp only [Iter.next.injEq] at h
        rw [← h.1]
        exact nextSegment_shrinks hn
      · simp at h

/-- `_scan(text, hold_partial=…)`. -/
def scan (text : Text) (holdPartial : Bool) : ReasoningParseResult :=
  ((scanLoop holdPartial).run text).2

/-! ## The parser -/

structure GptOssHarmonyReasoningParser where
  buffer : Text := []
  emittedReasoning : Nat := 0
  emittedContent : Nat := 0

namespace GptOssHarmonyReasoningParser

/-- What a scan has beyond the emitted lengths, and the new lengths. -/
def emitScan (p : GptOssHarmonyReasoningParser) (holdPartial : Bool) :
    GptOssHarmonyReasoningParser × ReasoningParseResult :=
  let r := scan p.buffer holdPartial
  ({ p with
      emittedReasoning := r.reasoningText.length
      emittedContent := r.normalText.length },
    ⟨r.reasoningText.drop p.emittedReasoning, r.normalText.drop p.emittedContent⟩)

def parseStreamingIncrement (p : GptOssHarmonyReasoningParser) (newText : Text) :
    GptOssHarmonyReasoningParser × ReasoningParseResult :=
  { p with buffer := p.buffer ++ newText }.emitScan true

def flush (p : GptOssHarmonyReasoningParser) :
    GptOssHarmonyReasoningParser × ReasoningParseResult := p.emitScan false

/-- The increments of the chunks, then the flush, concatenated. -/
def stream (p : GptOssHarmonyReasoningParser) : List Text → ReasoningParseResult
  | [] => p.flush.2
  | chunk :: chunks =>
    let r := p.parseStreamingIncrement chunk
    r.2 + r.1.stream chunks

end GptOssHarmonyReasoningParser

/-! ## What a longer text does to a scan -/

/-- The segments the scan of a text goes through. -/
inductive SegmentOf : Text → Segment → Prop where
  | here {text rest : Text} {seg : Segment} (h : nextSegment text = some (seg, rest)) :
      SegmentOf text seg
  | later {text rest : Text} {seg seg' : Segment} (h : nextSegment text = some (seg', rest))
      (hstop : seg'.stop.isSome) (hrest : SegmentOf rest seg) : SegmentOf text seg

/-- A tool block of `text` is closed by the opener of the next segment. -/
def OpenerClosesTool (text : Text) : Prop :=
  ∃ seg tok, SegmentOf text seg ∧ seg.isTool ∧ seg.stop = some tok ∧
    tok ∉ closingBoundaryTokens

theorem segmentEnd_append {body : Text} {e : Nat} {tok : Text}
    (h : segmentEnd body = (e, some tok)) (b : Text) : segmentEnd (body ++ b) = (e, some tok) := by
  rw [segmentEnd] at h ⊢
  cases he : earliest boundaryTokens body with
  | none => simp [he] at h
  | some best =>
    rw [he] at h
    rw [earliest_append boundary_markers he b]
    exact h

theorem segmentEnd_none {body : Text} {e : Nat} (h : segmentEnd body = (e, none)) :
    e = body.length ∧ ∀ tok ∈ boundaryTokens, find tok body = none := by
  rw [segmentEnd] at h
  cases he : earliest boundaryTokens body with
  | none =>
    rw [he] at h
    exact ⟨(congrArg Prod.fst h).symm, earliest_eq_none_iff.mp he⟩
  | some best => simp [he] at h

theorem segmentEnd_some {body tok : Text} {e : Nat} (h : segmentEnd body = (e, some tok)) :
    earliest boundaryTokens body = some (e, tok) := by
  rw [segmentEnd] at h
  cases he : earliest boundaryTokens body with
  | none => simp [he] at h
  | some best =>
    simp only [he, Prod.mk.injEq, Option.some.injEq] at h
    rw [← h.1, ← h.2]

/-- A segment whose boundary is there stays as it is when more text arrives. -/
theorem nextSegment_append {a rest : Text} {seg : Segment} (h : nextSegment a = some (seg, rest))
    (hstop : seg.stop.isSome) (b : Text) : nextSegment (a ++ b) = some (seg, rest ++ b) := by
  obtain ⟨header, bodyOn, hh, rfl, rfl⟩ := nextSegment_eq h
  obtain ⟨pre, rfl, -, hpre⟩ := headerOf_split hh
  have hle := segmentEnd_le bodyOn
  cases hend : segmentEnd bodyOn with
  | mk e stop =>
    rw [segmentAt_stop, hend] at hstop
    obtain ⟨tok, rfl⟩ := Option.isSome_iff_exists.mp hstop
    rw [hend] at hle
    rw [List.append_assoc, nextSegment_of_header (hpre _)]
    simp only [segmentAt, hend, segmentEnd_append hend b, List.take_append_of_le_length hle,
      List.drop_append_of_le_length hle]

theorem SegmentOf.append {a tok : Text} {seg : Segment} (h : SegmentOf a seg)
    (hstop : seg.stop = some tok) (b : Text) : SegmentOf (a ++ b) seg := by
  induction h with
  | here hn => exact .here (nextSegment_append hn (by rw [hstop]; rfl) b)
  | later hn hs _ ih => exact .later (nextSegment_append hn hs b) hs (ih hstop)

/-- The text up to a boundary, with any text that starts with that boundary. -/
theorem nextSegment_split {text rest tok : Text} {seg : Segment}
    (h : nextSegment text = some (seg, rest)) (hstop : seg.stop = some tok) :
    ∃ pre, text = pre ++ rest ∧ tok <+: rest ∧
      ∀ b, tok <+: b → nextSegment (pre ++ b) = some (seg, b) := by
  obtain ⟨header, bodyOn, hh, rfl, rfl⟩ := nextSegment_eq h
  obtain ⟨pre, rfl, -, hpre⟩ := headerOf_split hh
  cases hend : segmentEnd bodyOn with
  | mk e stop =>
    rw [segmentAt_stop, hend] at hstop
    obtain rfl : stop = some tok := hstop
    have hfirst := segmentEnd_some hend
    have hspec := earliest_spec boundaryTokens bodyOn
    rw [hfirst] at hspec
    have hlen := find_add_length_le hspec.2.1
    refine ⟨pre ++ bodyOn.take e, by simp, prefix_of_find hspec.2.1, ?_⟩
    rintro b ⟨b', rfl⟩
    have htok : bodyOn.take e ++ tok = bodyOn.take (e + tok.length) := by
      obtain ⟨r, hr⟩ := prefix_of_find hspec.2.1
      rw [List.take_add, ← hr, List.take_left]
    have hcut := earliest_append boundary_markers
      (earliest_take boundary_markers hfirst (Nat.le_refl _)) b'
    rw [← htok, List.append_assoc] at hcut
    have hte : (bodyOn.take e).length = e := by
      rw [List.length_take]
      omega
    rw [List.append_assoc, nextSegment_of_header (hpre _)]
    simp only [segmentAt, segmentEnd, hcut, hfirst]
    rw [List.take_append_of_le_length (by omega), List.drop_append_of_le_length (by omega),
      List.drop_eq_nil_of_le (by omega)]
    simp [hte]

/-! ## The scan only grows -/

theorem scan_none {text : Text} {hold : Bool} (h : nextSegment text = none) :
    scan text hold = 0 := by
  have hs : (scanLoop hold).step text = .done text 0 := by simp [scanLoop, scanStep, h]
  rw [scan, Loop.run_done hs]

theorem scan_stop {text rest : Text} {seg : Segment} {hold : Bool}
    (h : nextSegment text = some (seg, rest)) (hstop : seg.stop.isSome) :
    scan text hold = seg.emit hold + scan rest hold := by
  have hs : (scanLoop hold).step text = .next rest (seg.emit hold) := by
    simp [scanLoop, scanStep, h, hstop]
  rw [scan, Loop.run_next hs]
  rfl

theorem scan_open {text rest : Text} {seg : Segment} {hold : Bool}
    (h : nextSegment text = some (seg, rest)) (hstop : seg.stop = none) :
    scan text hold = seg.emit hold := by
  have hs : (scanLoop hold).step text = .done rest (seg.emit hold) := by
    simp [scanLoop, scanStep, h, hstop]
  rw [scan, Loop.run_done hs]

theorem emit_of_stop {seg : Segment} (hstop : seg.stop.isSome) (hold hold' : Bool) :
    seg.emit hold = seg.emit hold' := by
  have hn : seg.stop.isNone = false := by
    rw [← Option.not_isSome, hstop]
    rfl
  have hrel : seg.released hold = seg.released hold' := by
    simp only [Segment.released, hn, Bool.false_and, Bool.false_eq_true, if_false]
  rw [Segment.emit, Segment.emit, hrel]

/-- The body held back and the body of the longer text. -/
theorem released_prefix_of {header body b : Text} (hopen : (segmentEnd body).2 = none) (hold : Bool) :
    (Segment.mk header body none).released true <+:
      (segmentAt header (body ++ b)).1.released hold := by
  have hnone := (segmentEnd_none (e := (segmentEnd body).1) (by rw [← hopen])).2
  have hk := partialSuffix_le allTokens body
  have hrel : (Segment.mk header body none).released true =
      body.take (body.length - partialSuffix allTokens body) := by
    simp [Segment.released]
  rw [hrel]
  cases hend : segmentEnd (body ++ b) with
  | mk e stop =>
    cases stop with
    | none =>
      obtain ⟨rfl, -⟩ := segmentEnd_none hend
      have hk' := partialSuffix_append_le allTokens body b
      simp only [segmentAt, hend, Segment.released, Option.isNone_none, Bool.true_and,
        List.take_length]
      split
      · refine List.prefix_of_prefix_length_le
          ((List.take_prefix _ _).trans (List.prefix_append body b)) (List.take_prefix _ _) ?_
        simp only [List.length_take, List.length_append]
        omega
      · exact (List.take_prefix _ _).trans (List.prefix_append body b)
    | some tok =>
      have hspec := earliest_spec boundaryTokens (body ++ b)
      rw [segmentEnd_some hend] at hspec
      have hall : tok ∈ allTokens := List.mem_cons_of_mem _ (List.mem_cons_of_mem _ hspec.1)
      have hfree := free_of_partialSuffix hall (hnone tok hspec.1)
      have hge : body.length - partialSuffix allTokens body ≤ e := by
        by_contra hlt
        refine hfree b e (by rw [List.length_take]; omega) ?_
        rw [List.take_append_drop]
        exact prefix_of_find hspec.2.1
      simp only [segmentAt, hend, Segment.released, Option.isNone_some, Bool.false_and,
        Bool.false_eq_true, if_false]
      refine List.prefix_of_prefix_length_le
        ((List.take_prefix _ _).trans (List.prefix_append body b)) (List.take_prefix _ _) ?_
      have := segmentEnd_le (body ++ b)
      rw [hend] at this
      simp only [List.length_take, List.length_append] at this ⊢
      omega

/-- The block of a tool segment still streaming and the block of the longer text. -/
theorem verbatim_prefix {header body b : Text} (hopen : (segmentEnd body).2 = none)
    (hclose : ∀ tok, (segmentEnd (body ++ b)).2 = some tok → tok ∈ closingBoundaryTokens) :
    (Segment.mk header body none).verbatim <+: (segmentAt header (body ++ b)).1.verbatim := by
  have hnone := (segmentEnd_none (e := (segmentEnd body).1) (by rw [← hopen])).2
  simp only [Segment.verbatim, List.append_nil, segmentAt]
  refine (List.prefix_append_right_inj _).mpr ((List.prefix_append_right_inj _).mpr
    ((List.prefix_append_right_inj _).mpr ?_))
  cases hend : segmentEnd (body ++ b) with
  | mk e stop =>
    cases stop with
    | none =>
      obtain ⟨rfl, -⟩ := segmentEnd_none hend
      rw [List.take_length]
      simp
    | some tok =>
      have hspec := earliest_spec boundaryTokens (body ++ b)
      rw [segmentEnd_some hend] at hspec
      have hmem := hclose tok (by rw [hend])
      have htok : (body ++ b).take e ++ tok = (body ++ b).take (e + tok.length) := by
        obtain ⟨r, hr⟩ := prefix_of_find hspec.2.1
        rw [List.take_add, ← hr, List.take_left]
      have hlate := find_append_of_none (hnone tok hspec.1) hspec.2.1
      simp only [if_pos hmem, htok]
      refine List.prefix_of_prefix_length_le (List.prefix_append body b)
        (List.take_prefix _ _) ?_
      have := find_add_length_le hspec.2.1
      rw [List.length_take]
      omega

theorem emit_prefix (header : Text) {body b : Text} (hopen : (segmentEnd body).2 = none) (hold : Bool)
    (hclose : (segmentAt header (body ++ b)).1.isTool →
      ∀ tok, (segmentEnd (body ++ b)).2 = some tok → tok ∈ closingBoundaryTokens) :
    ((Segment.mk header body none).emit true).Prefix
      ((segmentAt header (body ++ b)).1.emit hold) := by
  have htool : (segmentAt header (body ++ b)).1.isTool = (Segment.mk header body none).isTool := rfl
  have hchan : (segmentAt header (body ++ b)).1.channel =
      (Segment.mk header body none).channel := rfl
  simp only [Segment.emit, htool, hchan]
  split
  · rename_i ht
    exact ⟨List.prefix_refl _, verbatim_prefix hopen (hclose (htool ▸ ht))⟩
  · split
    · exact ⟨released_prefix_of hopen hold, List.prefix_refl _⟩
    · exact ⟨List.prefix_refl _, released_prefix_of hopen hold⟩

/-- **The scan of a text is a prefix of the scan of every extension** in which no
tool block is closed by an opener. -/
theorem scan_prefix (p q : Text) (hold : Bool) (h : ¬OpenerClosesTool (p ++ q)) :
    (scan p true).Prefix (scan (p ++ q) hold) := by
  induction p using (scanLoop true).induct with
  | hdone p p' o hs =>
    cases hn : nextSegment p with
    | none =>
      rw [scan_none hn]
      exact ReasoningParseResult.Prefix.zero _
    | some r =>
      obtain ⟨seg, rest⟩ := r
      have hstop : seg.stop = none := by
        by_contra hne
        have : seg.stop.isSome := Option.isSome_iff_ne_none.mpr hne
        simp [scanLoop, scanStep, hn, this] at hs
      rw [scan_open hn hstop]
      obtain ⟨header, bodyOn, hh, rfl, -⟩ := nextSegment_eq hn
      obtain ⟨pre, rfl, -, hpre⟩ := headerOf_split hh
      rw [segmentAt_stop] at hstop
      have hself : (segmentAt header bodyOn).1 = ⟨header, bodyOn, none⟩ := by
        have := (segmentEnd_none (e := (segmentEnd bodyOn).1) (by rw [← hstop])).1
        simp only [segmentAt, hstop, this, List.take_length]
      have hnext := nextSegment_of_header (hpre (bodyOn ++ q))
      rw [← List.append_assoc] at hnext
      -- the last segment is still open in `p`, and grows with `q`
      have hemit := emit_prefix header (b := q) hstop hold (by
        intro htool tok htok
        by_contra hmem
        exact h ⟨_, tok, .here hnext, htool, htok, hmem⟩)
      rw [hself]
      cases hst : (segmentEnd (bodyOn ++ q)).2 with
      | none => rwa [scan_open hnext hst]
      | some tok =>
        rw [scan_stop hnext (by rw [segmentAt_stop, hst]; rfl)]
        exact hemit.add_right _
  | hnext p rest o hs ih =>
    cases hn : nextSegment p with
    | none => simp [scanLoop, scanStep, hn] at hs
    | some r =>
      obtain ⟨seg, rest'⟩ := r
      have hstop : seg.stop.isSome := by
        by_contra hne
        simp [scanLoop, scanStep, hn, hne] at hs
      have hrest : rest' = rest := by
        simp only [scanLoop, scanStep, hn, hstop, if_true, Iter.next.injEq] at hs
        exact hs.1
      subst hrest
      have hnext := nextSegment_append hn hstop q
      rw [scan_stop hn hstop, scan_stop hnext hstop, emit_of_stop hstop true hold]
      -- a segment that is closed in `p` is the same with `q` behind it
      refine (ih fun hc => h ?_).add_left _
      obtain ⟨seg', tok, hof, hrest⟩ := hc
      exact ⟨seg', tok, .later hnext hstop hof, hrest⟩

/-! ## Streams -/

namespace GptOssHarmonyReasoningParser

/-- The emitted lengths are those of the scan of the buffer. -/
def InStep (p : GptOssHarmonyReasoningParser) : Prop :=
  p.emittedReasoning = (scan p.buffer true).reasoningText.length ∧
    p.emittedContent = (scan p.buffer true).normalText.length

theorem drop_of_prefix {a b : Text} (h : a <+: b) : a ++ b.drop a.length = b := by
  obtain ⟨r, rfl⟩ := h
  rw [List.drop_left]

/-- What a scan adds to what was emitted, when it only grows. -/
theorem emitScan_adds {p : GptOssHarmonyReasoningParser} {r : ReasoningParseResult} {hold : Bool}
    (hr : p.emittedReasoning = r.reasoningText.length)
    (hc : p.emittedContent = r.normalText.length) (h : r.Prefix (scan p.buffer hold)) :
    r + (p.emitScan hold).2 = scan p.buffer hold := by
  ext1
  · rw [ReasoningParseResult.add_reasoningText, emitScan, hr]
    exact drop_of_prefix h.1
  · rw [ReasoningParseResult.add_normalText, emitScan, hc]
    exact drop_of_prefix h.2

theorem stream_scan {p : GptOssHarmonyReasoningParser} (chunks : List Text) (hp : p.InStep)
    (h : ¬OpenerClosesTool (p.buffer ++ chunks.flatten)) :
    scan p.buffer true + p.stream chunks = scan (p.buffer ++ chunks.flatten) false := by
  induction chunks generalizing p with
  | nil =>
    rw [List.flatten_nil, List.append_nil] at h ⊢
    have hgrow := scan_prefix p.buffer [] false (by rwa [List.append_nil])
    rw [List.append_nil] at hgrow
    exact emitScan_adds hp.1 hp.2 hgrow
  | cons chunk chunks ih =>
    rw [List.flatten_cons, ← List.append_assoc] at h ⊢
    have hnow : ¬OpenerClosesTool (p.buffer ++ chunk) := by
      rintro ⟨seg, tok, hof, htool, hstop, hopen⟩
      refine h ⟨seg, tok, ?_, htool, hstop, hopen⟩
      exact hof.append hstop _
    have hgrow := scan_prefix p.buffer chunk true hnow
    have hadd := emitScan_adds (p := { p with buffer := p.buffer ++ chunk }) hp.1 hp.2 hgrow
    have hrest := ih (p := (p.parseStreamingIncrement chunk).1) ⟨rfl, rfl⟩ h
    rw [stream, ← add_assoc]
    change scan p.buffer true + (emitScan _ true).2 + _ = _
    rw [hadd]
    exact hrest

/-- What was emitted is never taken back: a stream sends at least what is missing. -/
theorem length_le_stream (p : GptOssHarmonyReasoningParser) (chunks : List Text) :
    (scan (p.buffer ++ chunks.flatten) false).normalText.length ≤
      p.emittedContent + (p.stream chunks).normalText.length := by
  induction chunks generalizing p with
  | nil =>
    simp only [List.flatten_nil, List.append_nil, stream, flush, emitScan, List.length_drop]
    omega
  | cons chunk chunks ih =>
    have hrest := ih (p.parseStreamingIncrement chunk).1
    rw [List.flatten_cons, ← List.append_assoc, stream,
      ReasoningParseResult.add_normalText, List.length_append]
    have hbuf : (p.parseStreamingIncrement chunk).1.buffer = p.buffer ++ chunk := rfl
    have hemitted : (p.parseStreamingIncrement chunk).1.emittedContent =
        (scan (p.buffer ++ chunk) true).normalText.length := rfl
    have hout : (p.parseStreamingIncrement chunk).2.normalText.length =
        (scan (p.buffer ++ chunk) true).normalText.length - p.emittedContent := by
      simp only [parseStreamingIncrement, emitScan, List.length_drop]
    rw [hbuf, hemitted] at hrest
    omega

end GptOssHarmonyReasoningParser

/-! ## A cut inside the opener -/

theorem length_verbatim (seg : Segment) :
    seg.verbatim.length = 22 + seg.header.length + seg.body.length +
      (match seg.stop with
        | some tok => if tok ∈ closingBoundaryTokens then tok else []
        | none => []).length := by
  have hc : harmonyChannel.length = 11 := rfl
  have hm : harmonyMessage.length = 11 := rfl
  simp only [Segment.verbatim, List.length_append, hc, hm]
  omega

theorem opener_scan : ∀ tok ∈ boundaryTokens, tok ∉ closingBoundaryTokens →
    scan tok true = 0 := by decide

theorem length_boundary : ∀ tok ∈ boundaryTokens, 2 ≤ tok.length ∧ tok.length ≤ 11 := by decide

/-- Text that has a segment is longer than any boundary. -/
theorem length_of_scan {text : Text} (hold : Bool) (h : (scan text hold).normalText ≠ []) :
    22 ≤ text.length := by
  cases hn : nextSegment text with
  | none =>
    rw [scan_none hn] at h
    exact absurd rfl h
  | some r =>
    obtain ⟨seg, rest⟩ := r
    obtain ⟨header, bodyOn, hh, -, -⟩ := nextSegment_eq hn
    obtain ⟨pre, rfl, hlen, -⟩ := headerOf_split hh
    rw [List.length_append]
    omega

/-- A tool block closed by an opener: its content shrinks when the opener completes. -/
theorem scan_shrinks {text tok : Text} {seg : Segment} (h : SegmentOf text seg)
    (htool : seg.isTool) (hstop : seg.stop = some tok) (hopen : tok ∉ closingBoundaryTokens) :
    ∃ p x rest, text = p ++ x :: rest ∧
      (scan (p ++ [x]) true).normalText.length < (scan p true).normalText.length := by
  induction h with
  | @here text rest seg hn =>
    obtain ⟨header, bodyOn, hh, rfl, rfl⟩ := nextSegment_eq hn
    obtain ⟨pre, rfl, -, hpre⟩ := headerOf_split hh
    cases hend : segmentEnd bodyOn with
    | mk e stop =>
      rw [segmentAt_stop, hend] at hstop
      obtain rfl : stop = some tok := hstop
      have hfirst := segmentEnd_some hend
      have hspec := earliest_spec boundaryTokens bodyOn
      rw [hfirst] at hspec
      have hlen := find_add_length_le hspec.2.1
      obtain ⟨hlo, -⟩ := length_boundary tok hspec.1
      -- The body up to the last character of the opener, and with it.
      obtain ⟨x, hx⟩ : ∃ x, bodyOn.take (e + tok.length) =
          bodyOn.take (e + tok.length - 1) ++ [x] := by
        obtain ⟨x, hx⟩ : ∃ x, bodyOn[e + tok.length - 1]? = some x :=
          ⟨_, List.getElem?_eq_getElem (by omega)⟩
        refine ⟨x, ?_⟩
        rw [show e + tok.length = e + tok.length - 1 + 1 by omega, List.take_add_one,
          Nat.add_sub_cancel, hx]
        rfl
      have htake := earliest_take boundary_markers hfirst (Nat.le_refl _)
      have hcut := earliest_take_of_lt boundary_markers hfirst
        (n := e + tok.length - 1) (by omega)
      refine ⟨pre ++ bodyOn.take (e + tok.length - 1), x, bodyOn.drop (e + tok.length), ?_, ?_⟩
      · rw [List.append_assoc, List.append_cons, ← hx, List.take_append_drop]
      · have hshort := nextSegment_of_header (hpre (bodyOn.take (e + tok.length - 1)))
        have hlong := nextSegment_of_header (hpre (bodyOn.take (e + tok.length)))
        have hends : segmentEnd (bodyOn.take (e + tok.length - 1)) =
            ((bodyOn.take (e + tok.length - 1)).length, none) := by
          rw [segmentEnd, hcut]
        have hendl : segmentEnd (bodyOn.take (e + tok.length)) = (e, some tok) := by
          rw [segmentEnd, htake]
        have htok : (bodyOn.take (e + tok.length)).drop e = tok := by
          obtain ⟨r, hr⟩ := prefix_of_find hspec.2.1
          rw [List.drop_take, Nat.add_sub_cancel_left, ← hr, List.take_left]
        have hisTool : ∀ b, (segmentAt header b).1.isTool = true := fun b => htool
        have hsh : (scan (pre ++ bodyOn.take (e + tok.length - 1)) true).normalText =
            (segmentAt header (bodyOn.take (e + tok.length - 1))).1.verbatim := by
          rw [scan_open hshort (by rw [segmentAt_stop, hends]), Segment.emit, if_pos (hisTool _)]
        have hlo' : (scan (pre ++ bodyOn.take (e + tok.length)) true).normalText =
            (segmentAt header (bodyOn.take (e + tok.length))).1.verbatim := by
          rw [scan_stop hlong (by rw [segmentAt_stop, hendl]; rfl), hendl, htok,
            opener_scan tok hspec.1 hopen, add_zero, Segment.emit, if_pos (hisTool _)]
        rw [List.append_assoc, ← hx, hsh, hlo', length_verbatim, length_verbatim]
        simp only [segmentAt, hends, hendl, if_neg hopen, List.length_nil, List.length_take]
        omega
  | @later text rest seg seg' hn hs _ ih =>
    obtain ⟨p, x, rest', rfl, hlt⟩ := ih htool hstop
    obtain ⟨tok', htok'⟩ := Option.isSome_iff_exists.mp hs
    obtain ⟨pre, rfl, hpre', hall⟩ := nextSegment_split hn htok'
    have hp22 : 22 ≤ p.length := length_of_scan true (by
      intro h0
      rw [h0] at hlt
      simp at hlt)
    have hlen : tok'.length ≤ 11 := by
      obtain ⟨header, bodyOn, -, rfl, -⟩ := nextSegment_eq hn
      rw [segmentAt_stop] at htok'
      have hspec := earliest_spec boundaryTokens bodyOn
      rw [segmentEnd_some (e := (segmentEnd bodyOn).1) (by rw [← htok'])] at hspec
      exact (length_boundary tok' hspec.1).2
    have hpt : tok' <+: p :=
      List.prefix_of_prefix_length_le hpre' (List.prefix_append _ _) (by omega)
    have hp := hall p hpt
    have hpx := hall (p ++ [x]) (hpt.trans (List.prefix_append _ _))
    refine ⟨pre ++ p, x, rest', by simp, ?_⟩
    rw [List.append_assoc, scan_stop hp hs, scan_stop hpx hs,
      ReasoningParseResult.add_normalText, ReasoningParseResult.add_normalText,
      List.length_append, List.length_append]
    omega

/-! ## Streams equal the scan -/

/-- **Every chunking streams the one-shot scan, and scans only grow, exactly when no
tool block is closed by the opener of the next segment**: such a block is emitted
with the beginning of an opener that a chunk cut, and the scan then takes it back. -/
theorem harmony_streams_scan (text : Text) :
    ((∀ chunks : List Text, chunks.flatten = text →
        GptOssHarmonyReasoningParser.stream {} chunks = scan text false) ∧
      ∀ p q hold, p ++ q = text → (scan p true).Prefix (scan text hold)) ↔
    ¬OpenerClosesTool text := by
  constructor
  · rintro ⟨hall, -⟩ ⟨seg, tok, hof, htool, hstop, hopen⟩
    obtain ⟨p, x, rest, rfl, hlt⟩ := scan_shrinks hof htool hstop hopen
    have hrun := hall [p, [x], rest] (by simp)
    have hle := GptOssHarmonyReasoningParser.length_le_stream
      ((GptOssHarmonyReasoningParser.parseStreamingIncrement
        (GptOssHarmonyReasoningParser.parseStreamingIncrement {} p).1 [x]).1) [rest]
    have hlen := congrArg (fun r => r.normalText.length) hrun
    simp only [GptOssHarmonyReasoningParser.stream, ReasoningParseResult.add_normalText,
      List.length_append, GptOssHarmonyReasoningParser.parseStreamingIncrement,
      GptOssHarmonyReasoningParser.emitScan, List.nil_append, List.drop_zero, List.length_drop,
      List.flatten_cons, List.flatten_nil, List.append_nil, List.append_assoc,
      List.singleton_append] at hlen hle
    omega
  · intro h
    refine ⟨?_, ?_⟩
    · rintro chunks rfl
      have hstart : scan [] true = 0 := by decide
      have := GptOssHarmonyReasoningParser.stream_scan (p := {}) chunks
        ⟨by rw [hstart]; rfl, by rw [hstart]; rfl⟩ h
      rwa [hstart, zero_add, List.nil_append] at this
    · rintro p q hold rfl
      exact scan_prefix p q hold h

/-- A cut inside `<|start|>` after a tool block: `<|st` is sent as content, and the
answer behind it loses its first four characters. -/
theorem cut_opener_leaks :
    let first := "<|channel|>commentary to=functions.f<|message|>{}<|st".toList
    let second := "art|>assistant<|channel|>final<|message|>hello".toList
    GptOssHarmonyReasoningParser.stream {} [first, second] =
        ⟨[], "<|channel|>commentary to=functions.f<|message|>{}<|sto".toList⟩ ∧
      scan (first ++ second) false =
        ⟨[], "<|channel|>commentary to=functions.f<|message|>{}hello".toList⟩ := by
  decide +kernel

end FreeToken.Server.Harmony
