import FreeToken.Server.InvokeParams

/-!
# The invoke detectors stream independently of the chunks

Every mode of `InvokeParamStreamMixin` reads its buffer in one of the five ways, and
what follows a tag does not look at the buffer: the detector streams
(`detector_streams`).
-/

namespace FreeToken.Server

open FreeToken.Lib Buffered

namespace InvokeDetector

variable {env : Env} {g : InvokeGrammar} {tools : List Tool} {d : InvokeDetector}

/-! ## Progress -/

theorem size_lt {s t : InvokeDetector} (h : (buffer t).length < (buffer s).length) :
    t.buffer.length < s.buffer.length := h

theorem openInvoke_kind {group : Text} {d t : InvokeDetector} {o : Out Part}
    (h : openInvoke env g tools group d = some (t, o)) (parts : List Part)
    (ho : o = Out.ofList parts) : ∀ p ∈ parts, p.isCall = !false := by
  rw [openInvoke] at h
  split at h
  · simp only [Option.some.injEq, Prod.mk.injEq] at h
    exact kind_single (h.2.trans ho)
  · simp only [Option.some.injEq, Prod.mk.injEq] at h
    exact kind_zero (h.2.trans ho) false

theorem closeInvoke_kind {skip : Bool} {d t : InvokeDetector} {o : Out Part}
    (h : closeInvoke env skip d = some (t, o)) (parts : List Part)
    (ho : o = Out.ofList parts) : ∀ p ∈ parts, p.isCall = !false := by
  rw [closeInvoke] at h
  split at h
  · simp only [Option.some.injEq, Prod.mk.injEq] at h
    exact kind_zero (h.2.trans ho) false
  · simp only [Option.some.injEq, Prod.mk.injEq] at h
    exact kind_argsPart (h.2.trans ho)

theorem openParam_kind {skip : Bool} {group : Text} {d t : InvokeDetector} {o : Out Part}
    (h : openParam env g skip group d = some (t, o)) (parts : List Part)
    (ho : o = Out.ofList parts) : ∀ p ∈ parts, p.isCall = !false := by
  rw [openParam] at h
  split at h
  · simp only [Option.some.injEq, Prod.mk.injEq] at h
    exact kind_zero (h.2.trans ho) false
  · obtain ⟨ptype, -, hp⟩ := Option.map_eq_some_iff.mp h
    split at hp
    · exact kind_argsPart ((congrArg Prod.snd hp).trans ho)
    · exact kind_zero ((congrArg Prod.snd hp).trans ho) false

theorem closeTyped_kind {content : Text} {d t : InvokeDetector} {o : Out Part}
    (h : closeTyped env g content d = some (t, o)) (parts : List Part)
    (ho : o = Out.ofList parts) : ∀ p ∈ parts, p.isCall = !false := by
  rw [closeTyped] at h
  obtain ⟨v, -, hv⟩ := Option.map_eq_some_iff.mp h
  exact kind_argsPart ((congrArg Prod.snd hv).trans ho)

/-- One iteration makes progress, and puts out text outside blocks only. -/
theorem step_fine (called : Bool) (d : InvokeDetector) :
    Fine (fun d : InvokeDetector => d.buffer.length) (d.psMode == .idle && !called) d
      (d.step env g tools called) := by
  have hd : ∀ {tok}, tok ∈ [g.outerOpen, g.outerClose, g.invokeOpenPrefix, g.invokeClose,
    g.paramOpenPrefix, g.paramClose] → Headed tok := fun h => g.headed _ h
  have hre : ∀ (m : Matcher Char Text) (opn t group rest : Text), opn <+: t →
      m.search t = some (group, rest) → rest.length < t.length :=
    fun m opn t group rest _ h => Matcher.search_shrinks h
  rw [step]
  split
  · exact fine_wait
  · cases hm : d.psMode with
    | idle =>
      cases called with
      | true => exact fine_wait
      | false => exact fine_readText (fun _ _ => size_lt) (hd (by simp)) _ d
    | block =>
      exact fine_scanTags (fun _ _ => size_lt) (hd (by simp)) (hre _ _)
        (fun rest h => fine_follow (fun _ _ => size_lt) h fun t o => quiet_kind)
        (fun group rest h => fine_follow (fun _ _ => size_lt) h fun t o => openInvoke_kind)
    | invoke =>
      exact fine_scanTags (fun _ _ => size_lt) (hd (by simp)) (hre _ _)
        (fun rest h => fine_follow (fun _ _ => size_lt) h fun t o => closeInvoke_kind)
        (fun group rest h => fine_follow (fun _ _ => size_lt) h fun t o => openParam_kind)
    | invokeSkip =>
      exact fine_scanTags (fun _ _ => size_lt) (hd (by simp)) (hre _ _)
        (fun rest h => fine_follow (fun _ _ => size_lt) h fun t o => closeInvoke_kind)
        (fun group rest h => fine_follow (fun _ _ => size_lt) h fun t o => openParam_kind)
    | pstr =>
      dsimp only
      split
      · exact fine_readString (fun _ _ => size_lt) (hd (by simp)) d
      · have hp : Headed g.paramClose := hd (by simp)
        exact fine_readLeading (fun _ _ => size_lt) leadTrimmed hp (fun _ => rfl) d
    | pbuf =>
      exact fine_waitFor (hd (by simp)) fun content rest h =>
        fine_follow (fun _ _ => size_lt) h fun t o => closeTyped_kind
    | pskip =>
      exact fine_waitFor (hd (by simp)) fun content rest h =>
        fine_follow (fun _ _ => size_lt) h fun t o => quiet_kind

/-- The detector of a grammar. -/
def detector (env : Env) (g : InvokeGrammar) (tools : List Tool) : StreamDetector InvokeDetector where
  fresh := {}
  step := step env g tools
  size d := d.buffer.length
  shrinks called d d' o h := (step_fine called d).next d' o h
  finish := finishStreaming g

/-! ## What a mode looks for -/

/-- The tags of the modes between tags. -/
def marks (g : InvokeGrammar) (d : InvokeDetector) : Marks Char :=
  match d.psMode with
  | .block => .two g.outerClose g.invokeOpenPrefix
  | .invoke => .two g.invokeClose g.paramOpenPrefix
  | .invokeSkip => .two g.invokeClose g.paramOpenPrefix
  | _ => .none

theorem marks_ok (d : InvokeDetector) : (marks g d).Ok := by
  rw [marks]
  split
  · exact ⟨g.headed _ (by simp), g.headed _ (by simp), g.blockApart⟩
  · exact ⟨g.headed _ (by simp), g.headed _ (by simp), g.invokeApart⟩
  · exact ⟨g.headed _ (by simp), g.headed _ (by simp), g.invokeApart⟩
  · trivial

/-! ## What follows the tags -/

theorem closeBlock_blind : Blind closeBlock := fun _ _ => rfl

theorem openInvoke_blind (group : Text) : Blind (openInvoke env g tools group) := by
  intro d b
  simp only [openInvoke]
  split <;> rfl

theorem closeInvoke_blind (skip : Bool) : Blind (closeInvoke env skip) := by
  intro d b
  cases skip <;> rfl

theorem openParam_blind (skip : Bool) (group : Text) : Blind (openParam env g skip group) := by
  intro d b
  cases skip with
  | true => rfl
  | false =>
    simp only [openParam, Bool.false_eq_true, if_false, Option.map_map]
    refine Option.map_congr fun ptype _ => ?_
    simp only [Function.comp]
    split <;> rfl

theorem closeTyped_blind (content : Text) : Blind (closeTyped env g content) := by
  intro d b
  simp only [closeTyped, Option.map_map]
  rfl

theorem closeSkipped_blind (content : Text) : Blind (closeSkipped content) := fun _ _ => rfl

/-! ## The modes -/

theorem step_of_buffer {s : InvokeDetector} (h : s.buffer ≠ []) :
    s.step env g tools false =
      match s.psMode with
      | .idle => readText g.outerOpen enterBlock s
      | .block =>
        scanTags g.outerClose g.invokeOpenPrefix g.invokeOpenRe.search (follow closeBlock)
          (fun group => follow (openInvoke env g tools group)) s
      | .invoke => s.invokeStep env g false
      | .invokeSkip => s.invokeStep env g true
      | .pstr =>
        if s.psLeadTrimmed then readString env g.paramClose g.trim leaveValue s
        else readLeading env g.paramClose g.trim (leadDone g) leadTrimmed leaveValue s
      | .pbuf => waitFor g.paramClose (fun content => follow (closeTyped env g content)) s
      | .pskip => waitFor g.paramClose (fun content => follow (closeSkipped content)) s := by
  rw [step, if_neg h]
  rfl

/-- In a mode that does nothing to an empty buffer, the iteration is the mode's reading. -/
theorem step_reads {s : InvokeDetector} {read : InvokeDetector → Iter InvokeDetector (Out Part)}
    (hnil : s.buffer = [] → read s = .done s 0)
    (h : s.buffer ≠ [] → s.step env g tools false = read s) : s.step env g tools false = read s := by
  by_cases hb : s.buffer = []
  · rw [hnil hb, step, if_pos hb]
  · exact h hb

theorem search_append (m : Matcher Char Text) (opn t group rest : Text) (_ : opn <+: t)
    (h : m.search t = some (group, rest)) (y : Text) :
    m.search (t ++ y) = some (group, rest ++ y) := Matcher.search_append h y

theorem step_idle (h : d.psMode = .idle) (b : Text) :
    step env g tools false (setBuffer d b) = readText g.outerOpen enterBlock (setBuffer d b) := by
  refine step_reads (fun hb => readText_nil (g.headed _ (by simp)) _ hb) fun hb => ?_
  rw [step_of_buffer hb]
  simp only [show (setBuffer d b).psMode = .idle from h]

theorem step_block (h : d.psMode = .block) (b : Text) :
    step env g tools false (setBuffer d b) =
      scanTags g.outerClose g.invokeOpenPrefix g.invokeOpenRe.search (follow closeBlock)
        (fun group => follow (openInvoke env g tools group)) (setBuffer d b) := by
  refine step_reads (fun hb => scanTags_nil (g.headed _ (by simp)) (g.headed _ (by simp)) _ _ _ hb)
    fun hb => ?_
  rw [step_of_buffer hb]
  simp only [show (setBuffer d b).psMode = .block from h]

theorem step_invoke (skip : Bool) (h : d.psMode = if skip then .invokeSkip else .invoke) (b : Text) :
    step env g tools false (setBuffer d b) =
      scanTags g.invokeClose g.paramOpenPrefix g.paramOpenRe.search (follow (closeInvoke env skip))
        (fun group => follow (openParam env g skip group)) (setBuffer d b) := by
  refine step_reads (fun hb => scanTags_nil (g.headed _ (by simp)) (g.headed _ (by simp)) _ _ _ hb)
    fun hb => ?_
  rw [step_of_buffer hb]
  cases skip with
  | true =>
    simp only [show (setBuffer d b).psMode = .invokeSkip from h]
    rfl
  | false =>
    simp only [show (setBuffer d b).psMode = .invoke from h]
    rfl

theorem step_pstr_trimmed (h : d.psMode = .pstr) (ht : d.psLeadTrimmed = true) (c : CallState)
    (b : Text) :
    step env g tools false (setBuffer (Calling.setCalls d c) b) =
      readString env g.paramClose g.trim leaveValue (setBuffer (Calling.setCalls d c) b) := by
  refine step_reads (fun hb => readString_nil (g.headed _ (by simp)) _ _ _ hb) fun hb => ?_
  rw [step_of_buffer hb]
  simp only [show (setBuffer (Calling.setCalls d c) b).psMode = .pstr from h,
    show (setBuffer (Calling.setCalls d c) b).psLeadTrimmed = true from ht, if_true]

theorem resumes_pstr_trimmed (h : d.psMode = .pstr) (ht : d.psLeadTrimmed = true) (y : Text) :
    Resumes (detector env g tools) (marks g) d y :=
  resumes_readString (fun b c => step_pstr_trimmed h ht c b) (g.headed _ (by simp))
    (fun _ _ => rfl) (fun _ _ => rfl) y

theorem resumes_pstr (h : d.psMode = .pstr) (y : Text) :
    Resumes (detector env g tools) (marks g) d y := by
  cases ht : d.psLeadTrimmed with
  | true => exact resumes_pstr_trimmed h ht y
  | false =>
    have hread : ∀ b, (detector env g tools).step false (setBuffer (leadTrimmed d) b) =
        readString env g.paramClose g.trim leaveValue (setBuffer (leadTrimmed d) b) :=
      fun b => step_pstr_trimmed (d := leadTrimmed d) h rfl d.calls b
    refine resumes_readLeading (leadDone g) leadTrimmed ?_ ?_ hread
      (fun y => resumes_pstr_trimmed (d := leadTrimmed d) h rfl y)
      (fun _ _ => rfl) (fun _ => rfl) ?_ ?_ y
    · intro t hb
      exact if_pos hb
    · intro b hb
      have hs := @step_of_buffer env g tools (setBuffer d b) hb
      simp only [show (setBuffer d b).psMode = .pstr from h,
        show (setBuffer d b).psLeadTrimmed = false from ht, Bool.false_eq_true, if_false] at hs
      exact hs
    · simp [leadDone]
    · rintro text y (h0 | h0)
      · have h1 : (text != []) = true := by simpa using h0
        have h2 : (text ++ y != []) = true := by simp [h0]
        rw [leadDone, leadDone, h1, h2]
      · simp [leadDone, h0]

/-- **Stopping and going on with more input is as good as having had it.** -/
theorem resumes (d : InvokeDetector) (y : Text) :
    Resumes (detector env g tools) (marks g) d y := by
  cases hm : d.psMode with
  | idle =>
    exact resumes_readText (step_idle hm) (g.headed _ (by simp)) (fun _ _ => rfl) y
  | block =>
    exact resumes_scanTags (fun _ _ => rfl) (step_block hm) (by rw [marks, hm]) (marks_ok d)
      (search_append _ _) closeBlock_blind.continues
      (fun group => (openInvoke_blind group).continues) y
  | invoke =>
    exact resumes_scanTags (fun _ _ => rfl) (step_invoke false hm) (by rw [marks, hm])
      (marks_ok d) (search_append _ _) (closeInvoke_blind false).continues
      (fun group => (openParam_blind false group).continues) y
  | invokeSkip =>
    exact resumes_scanTags (fun _ _ => rfl) (step_invoke true hm) (by rw [marks, hm])
      (marks_ok d) (search_append _ _) (closeInvoke_blind true).continues
      (fun group => (openParam_blind true group).continues) y
  | pstr => exact resumes_pstr hm y
  | pbuf =>
    refine resumes_waitFor g.paramClose (fun content => follow (closeTyped env g content))
      (fun b => ?_) (fun content => (closeTyped_blind content).continues) y
    refine step_reads (fun hb => waitFor_nil (g.headed _ (by simp)) _ hb) fun hb => ?_
    rw [step_of_buffer hb]
    simp only [show (setBuffer d b).psMode = .pbuf from hm]
  | pskip =>
    refine resumes_waitFor g.paramClose (fun content => follow (closeSkipped content))
      (fun b => ?_) (fun content => (closeSkipped_blind content).continues) y
    refine step_reads (fun hb => waitFor_nil (g.headed _ (by simp)) _ hb) fun hb => ?_
    rw [step_of_buffer hb]
    simp only [show (setBuffer d b).psMode = .pskip from hm]

/-- Dropping the whitespace in front of the next tag makes no difference. -/
theorem dropsJunk (d : InvokeDetector) : DropsJunk (detector env g tools) (marks g) d := by
  cases hm : d.psMode with
  | block =>
    exact dropsJunk_scanTags (fun _ _ => rfl) (step_block hm) (by rw [marks, hm]) (marks_ok d)
      closeBlock_blind.continues
      (fun group => (openInvoke_blind group).continues)
  | invoke =>
    exact dropsJunk_scanTags (fun _ _ => rfl) (step_invoke false hm) (by rw [marks, hm])
      (marks_ok d) (closeInvoke_blind false).continues
      (fun group => (openParam_blind false group).continues)
  | invokeSkip =>
    exact dropsJunk_scanTags (fun _ _ => rfl) (step_invoke true hm) (by rw [marks, hm])
      (marks_ok d) (closeInvoke_blind true).continues
      (fun group => (openParam_blind true group).continues)
  | idle => exact dropsJunk_of_none (by rw [marks, hm])
  | pstr => exact dropsJunk_of_none (by rw [marks, hm])
  | pbuf => exact dropsJunk_of_none (by rw [marks, hm])
  | pskip => exact dropsJunk_of_none (by rw [marks, hm])

/-! ## The detector streams -/

theorem marks_setBuffer (d : InvokeDetector) (b : Text) : marks g (setBuffer d b) = marks g d := rfl

theorem finishStreaming_norm (d : InvokeDetector) :
    finishStreaming g (canon (marks g) d) = finishStreaming g d := by
  cases hm : d.psMode with
  | idle => rw [norm_of_none (by rw [marks, hm])]
  | _ =>
    have hn : (canon (marks g) d).psMode = d.psMode := rfl
    simp only [finishStreaming, hn, hm]
    rfl

/-- Only text outside of blocks waits for the calls in front of it. -/
theorem step_called (hm : d.psMode ≠ .idle) :
    d.step env g tools true = d.step env g tools false := by
  cases h : d.psMode with
  | idle => exact absurd h hm
  | _ => simp only [step, h]

theorem step_defers (d : InvokeDetector) :
    d.step env g tools true = d.step env g tools false ∨ d.step env g tools true = .done d 0 := by
  by_cases hm : d.psMode = .idle
  · refine Or.inr ?_
    simp only [step, hm, if_true, ite_self]
  · exact Or.inl (step_called hm)

theorem incremental : (detector env g tools).eventLoop.Incremental push (canon (marks g)) where
  push_append := push_append
  push_norm d y := norm_push_norm marks_setBuffer marks_ok d y
  run_norm d := by
    have h := @dropsJunk env g tools d []
    rw [push_nil, push_nil] at h
    exact h.symm
  resumes := resumes

/-- **The detector of a grammar streams.** -/
theorem detector_streams : (detector env g tools).Streams (canon (marks g)) where
  incremental := incremental
  finish_norm := finishStreaming_norm
  defers := step_defers
  kind called d parts h := by
    have hk := (@step_fine env g tools called d).kind parts h
    cases hc : (d.psMode == .idle && !called) with
    | true =>
      refine Or.inr ⟨by simp at hc; exact hc.2, fun p hp => ?_⟩
      rw [hk p hp, hc]
      rfl
    | false =>
      refine Or.inl fun p hp => ?_
      rw [hk p hp, hc]
      rfl
  settles called d d' o h := (step_fine called d).done d' o h

end InvokeDetector

end FreeToken.Server
