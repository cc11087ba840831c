import FreeToken.Server.Glm47

/-!
# The GLM-4.7 detector streams independently of the chunks

The modes of `Glm47Detector` read their buffer in the five ways, but for the function
name, which ends at the first of three tokens; the detector streams
(`detector_streams`).
-/

namespace FreeToken.Server

open FreeToken.Lib Buffered

namespace Glm47Detector

variable {env : Env} {tools : List Tool} {d : Glm47Detector}

/-! ## Progress -/

/-- A name that is read leaves the buffer as it is when a tag follows directly. -/
def size (d : Glm47Detector) : Nat := 2 * d.buffer.length + if d.gMode = .name then 1 else 0

theorem size_lt (s t : Glm47Detector) (h : (buffer t).length < (buffer s).length) :
    size t < size s := by
  have h' : t.buffer.length < s.buffer.length := h
  unfold size
  split <;> split <;> omega

theorem openCall_kind {name : Text} {d t : Glm47Detector} {o : Out Part}
    (h : openCall env tools name d = some (t, o)) (parts : List Part)
    (ho : o = Out.ofList parts) : ∀ p ∈ parts, p.isCall = !false := by
  rw [openCall] at h
  split at h
  · simp only [Option.some.injEq, Prod.mk.injEq] at h
    exact kind_single (h.2.trans ho)
  · simp only [Option.some.injEq, Prod.mk.injEq] at h
    exact kind_zero (h.2.trans ho) false

theorem openCall_mode {name : Text} {d t : Glm47Detector} {o : Out Part}
    (h : openCall env tools name d = some (t, o)) (rest : Text) :
    (setBuffer t rest).gMode ≠ .name := by
  rw [openCall] at h
  split at h
  · simp only [Option.some.injEq, Prod.mk.injEq] at h
    rw [← h.1]
    simp [setBuffer]
  · simp only [Option.some.injEq, Prod.mk.injEq] at h
    rw [← h.1]
    simp [setBuffer]

theorem closeInvoke_kind {skip : Bool} {d t : Glm47Detector} {o : Out Part}
    (h : closeInvoke env skip d = some (t, o)) (parts : List Part)
    (ho : o = Out.ofList parts) : ∀ p ∈ parts, p.isCall = !false := by
  rw [closeInvoke] at h
  split at h
  · simp only [Option.some.injEq, Prod.mk.injEq] at h
    exact kind_zero (h.2.trans ho) false
  · simp only [Option.some.injEq, Prod.mk.injEq] at h
    exact kind_argsPart (h.2.trans ho)

theorem openValue_kind {skip : Bool} {d t : Glm47Detector} {o : Out Part}
    (h : openValue env skip d = some (t, o)) (parts : List Part)
    (ho : o = Out.ofList parts) : ∀ p ∈ parts, p.isCall = !false := by
  rw [openValue] at h
  split at h
  · simp only [Option.some.injEq, Prod.mk.injEq] at h
    exact kind_zero (h.2.trans ho) false
  · obtain ⟨ptype, -, hp⟩ := Option.map_eq_some_iff.mp h
    split at hp
    · exact kind_argsPart ((congrArg Prod.snd hp).trans ho)
    · exact kind_zero ((congrArg Prod.snd hp).trans ho) false

theorem closeTyped_kind {content : Text} {d t : Glm47Detector} {o : Out Part}
    (h : closeTyped env content d = some (t, o)) (parts : List Part)
    (ho : o = Out.ofList parts) : ∀ p ∈ parts, p.isCall = !false := by
  rw [closeTyped] at h
  obtain ⟨v, -, hv⟩ := Option.map_eq_some_iff.mp h
  exact kind_argsPart ((congrArg Prod.snd hv).trans ho)

theorem nameEnds_pos : ∀ tok ∈ nameEnds, 0 < tok.length := by decide

theorem fine_readName (hm : d.gMode = .name) : Fine size false d (readName env tools d) := by
  unfold readName
  cases firstFound nameEnds d.buffer with
  | none => exact fine_wait
  | some cut =>
    dsimp only
    rw [follow]
    cases ho : openCall env tools (d.buffer.take cut) d with
    | none => exact fine_raise
    | some r =>
      obtain ⟨t, o⟩ := r
      refine fine_next ?_ (openCall_kind ho)
      generalize hrest : (if d.buffer[cut]? = some '\n' then d.buffer.drop (cut + 1)
        else d.buffer.drop cut) = rest
      have hle : rest.length ≤ d.buffer.length := by
        rw [← hrest]
        split <;> (rw [List.length_drop]; omega)
      rw [size, size, if_neg (openCall_mode ho rest), if_pos hm]
      exact Nat.lt_succ_of_le (Nat.mul_le_mul_left 2 hle)

theorem literalTag_shrinks {tok : Text} (ht : Headed tok) (t : Text) (group : Unit) (rest : Text)
    (hpre : tok <+: t) (h : literalTag tok t = some (group, rest)) : rest.length < t.length := by
  obtain ⟨c, cs, rfl, -⟩ := ht
  simp only [literalTag, Option.some.injEq, Prod.mk.injEq, true_and] at h
  have := hpre.length_le
  rw [← h, List.length_drop]
  simp only [List.length_cons] at this ⊢
  omega

theorem literalTag_append (tok t : Text) (group : Unit) (rest : Text) (hpre : tok <+: t)
    (h : literalTag tok t = some (group, rest)) (y : Text) :
    literalTag tok (t ++ y) = some (group, rest ++ y) := by
  simp only [literalTag, Option.some.injEq, Prod.mk.injEq, true_and] at h ⊢
  rw [← h, List.drop_append_of_le_length hpre.length_le]

/-- One iteration makes progress, and puts out text outside blocks only. -/
theorem step_fine (called : Bool) (d : Glm47Detector) :
    Fine size (d.gMode == .idle && !called) d (d.step env tools called) := by
  have hopen : Headed keyOpen := headed _ (by simp)
  have hkey : Headed keyClose := headed _ (by simp)
  have hval : Headed valOpen := headed _ (by simp)
  have hclose : Headed valClose := headed _ (by simp)
  rw [step]
  split
  · exact fine_wait
  · cases hm : d.gMode with
    | idle =>
      cases called with
      | true => exact fine_wait
      | false => exact fine_readText size_lt (headed botToken (by simp)) _ d
    | name => exact fine_readName hm
    | invoke =>
      exact fine_scanTags size_lt (headed eotToken (by simp)) (literalTag_shrinks hopen)
        (fun rest h => fine_follow size_lt h fun t o => closeInvoke_kind)
        (fun group rest h => fine_follow size_lt h fun t o =>
          quiet_kind)
    | invokeSkip =>
      exact fine_scanTags size_lt (headed eotToken (by simp)) (literalTag_shrinks hopen)
        (fun rest h => fine_follow size_lt h fun t o => closeInvoke_kind)
        (fun group rest h => fine_follow size_lt h fun t o =>
          quiet_kind)
    | key =>
      exact fine_waitFor hkey fun content rest h => fine_follow size_lt h fun t o =>
        quiet_kind
    | keySkip =>
      exact fine_waitFor hkey fun content rest h => fine_follow size_lt h fun t o =>
        quiet_kind
    | preval =>
      exact fine_skipTo size_lt hval fun rest h => fine_follow size_lt h fun t o => openValue_kind
    | prevalSkip =>
      exact fine_skipTo size_lt hval fun rest h => fine_follow size_lt h fun t o => openValue_kind
    | pstr =>
      dsimp only
      split
      · exact fine_readString size_lt hclose d
      · exact fine_readLeading size_lt leadTrimmed hclose (fun _ => rfl) d
    | pbuf =>
      exact fine_waitFor hclose fun content rest h =>
        fine_follow size_lt h fun t o => closeTyped_kind
    | pskip =>
      exact fine_waitFor hclose fun content rest h => fine_follow size_lt h fun t o =>
        quiet_kind

/-- The detector for a tool list. -/
def detector (env : Env) (tools : List Tool) : StreamDetector Glm47Detector where
  fresh := {}
  step := step env tools
  size := size
  shrinks called d d' o h := (step_fine called d).next d' o h
  finish := finishStreaming

/-! ## What a mode looks for -/

/-- The tags of the modes between tags. -/
def marks (d : Glm47Detector) : Marks Char :=
  match d.gMode with
  | .invoke => .two eotToken keyOpen
  | .invokeSkip => .two eotToken keyOpen
  | .preval => .one valOpen
  | .prevalSkip => .one valOpen
  | _ => .none

theorem marks_ok (d : Glm47Detector) : (marks d).Ok := by
  rw [marks]
  split
  · exact ⟨headed _ (by simp), headed _ (by simp), apart⟩
  · exact ⟨headed _ (by simp), headed _ (by simp), apart⟩
  · exact headed _ (by simp)
  · exact headed _ (by simp)
  · trivial

/-! ## What follows the tags -/

theorem openCall_blind (name : Text) : Blind (openCall env tools name) := by
  intro d b
  simp only [openCall]
  split <;> rfl

theorem closeInvoke_blind (skip : Bool) : Blind (closeInvoke env skip) := by
  intro d b
  cases skip <;> rfl

theorem openKey_blind (skip : Bool) : Blind (openKey skip) := fun _ _ => rfl

theorem closeKey_blind (skip : Bool) (content : Text) : Blind (closeKey skip content) :=
  fun _ _ => rfl

theorem openValue_blind (skip : Bool) : Blind (openValue env skip) := by
  intro d b
  cases skip with
  | true => rfl
  | false =>
    simp only [openValue, Bool.false_eq_true, if_false, Option.map_map]
    refine Option.map_congr fun ptype _ => ?_
    simp only [Function.comp]
    split <;> rfl

theorem closeTyped_blind (content : Text) : Blind (closeTyped env content) := by
  intro d b
  simp only [closeTyped, Option.map_map]
  rfl

theorem closeSkipped_blind (content : Text) : Blind (closeSkipped content) := fun _ _ => rfl

/-! ## The modes -/

/-- In a mode that does nothing to an empty buffer, the iteration is the mode's reading. -/
theorem step_reads {s : Glm47Detector} {read : Glm47Detector → Iter Glm47Detector (Out Part)}
    (hnil : s.buffer = [] → read s = .done s 0)
    (h : s.buffer ≠ [] → s.step env tools false = read s) : s.step env tools false = read s := by
  by_cases hb : s.buffer = []
  · rw [hnil hb, step, if_pos hb]
  · exact h hb

theorem step_idle (h : d.gMode = .idle) (b : Text) :
    step env tools false (setBuffer d b) = readText botToken enterName (setBuffer d b) := by
  refine step_reads (fun hb => readText_nil (headed _ (by simp)) _ hb) fun hb => ?_
  rw [step, if_neg hb]
  simp only [show (setBuffer d b).gMode = .idle from h]
  rfl

theorem step_invoke (skip : Bool) (h : d.gMode = if skip then .invokeSkip else .invoke) (b : Text) :
    step env tools false (setBuffer d b) =
      scanTags eotToken keyOpen (literalTag keyOpen) (follow (closeInvoke env skip))
        (fun _ => follow (openKey skip)) (setBuffer d b) := by
  refine step_reads (fun hb => scanTags_nil (headed _ (by simp)) (headed _ (by simp)) _ _ _ hb)
    fun hb => ?_
  rw [step, if_neg hb]
  cases skip with
  | true =>
    simp only [show (setBuffer d b).gMode = .invokeSkip from h]
    rfl
  | false =>
    simp only [show (setBuffer d b).gMode = .invoke from h]
    rfl

theorem step_key (skip : Bool) (h : d.gMode = if skip then .keySkip else .key) (b : Text) :
    step env tools false (setBuffer d b) =
      waitFor keyClose (fun content => follow (closeKey skip content)) (setBuffer d b) := by
  refine step_reads (fun hb => waitFor_nil (headed _ (by simp)) _ hb) fun hb => ?_
  rw [step, if_neg hb]
  cases skip with
  | true => simp only [show (setBuffer d b).gMode = .keySkip from h]
  | false => simp only [show (setBuffer d b).gMode = .key from h]

theorem step_preval (skip : Bool) (h : d.gMode = if skip then .prevalSkip else .preval) (b : Text) :
    step env tools false (setBuffer d b) =
      skipTo valOpen (follow (openValue env skip)) (setBuffer d b) := by
  refine step_reads (fun hb => skipTo_nil (headed _ (by simp)) _ hb) fun hb => ?_
  rw [step, if_neg hb]
  cases skip with
  | true => simp only [show (setBuffer d b).gMode = .prevalSkip from h]
  | false => simp only [show (setBuffer d b).gMode = .preval from h]

theorem step_pstr_trimmed (h : d.gMode = .pstr) (ht : d.gLeadTrimmed = true) (c : CallState)
    (b : Text) :
    step env tools false (setBuffer (Calling.setCalls d c) b) =
      readString env valClose trim leaveValue (setBuffer (Calling.setCalls d c) b) := by
  refine step_reads (fun hb => readString_nil (headed _ (by simp)) _ _ _ hb) fun hb => ?_
  rw [step, if_neg hb]
  simp only [show (setBuffer (Calling.setCalls d c) b).gMode = .pstr from h,
    show (setBuffer (Calling.setCalls d c) b).gLeadTrimmed = true from ht, if_true]

/-- The name ends at the same place whatever follows. -/
theorem resumes_name (h : d.gMode = .name) (y : Text) : Resumes (detector env tools) marks d y := by
  have hs : ∀ b, step env tools false (setBuffer d b) = readName env tools (setBuffer d b) := by
    intro b
    refine step_reads (fun hb => ?_) fun hb => ?_
    · have hb' : (setBuffer d b).buffer = [] := hb
      rw [readName, hb', show firstFound nameEnds [] = none by decide]
    · rw [step, if_neg hb]
      simp only [show (setBuffer d b).gMode = .name from h]
  have h0 := hs d.buffer
  have hy := hs (d.buffer ++ y)
  rw [show setBuffer d d.buffer = d from rfl] at h0
  unfold readName at h0 hy
  rw [show (setBuffer d (d.buffer ++ y)).buffer = d.buffer ++ y from rfl] at hy
  cases hf : firstFound nameEnds d.buffer with
  | none =>
    rw [hf] at h0
    exact resumes_wait h0
  | some cut =>
    rw [firstFound_append nameEnds_apart hf] at hy
    rw [hf] at h0
    obtain ⟨⟨tok, htok, hfind⟩, -⟩ := firstFound_eq_some_iff.mp hf
    have hend := find_add_length_le hfind
    have hpos := nameEnds_pos tok htok
    dsimp only at h0 hy
    rw [List.take_append_of_le_length (by omega), List.getElem?_append_left (by omega)] at hy
    have hrest : (if d.buffer[cut]? = some '\n' then (d.buffer ++ y).drop (cut + 1)
          else (d.buffer ++ y).drop cut) =
        (if d.buffer[cut]? = some '\n' then d.buffer.drop (cut + 1) else d.buffer.drop cut) ++ y := by
      split
      · exact List.drop_append_of_le_length (by omega)
      · exact List.drop_append_of_le_length (by omega)
    rw [hrest] at hy
    exact resumes_continues (openCall_blind _).continues h0 hy

theorem resumes_pstr_trimmed (h : d.gMode = .pstr) (ht : d.gLeadTrimmed = true) (y : Text) :
    Resumes (detector env tools) marks d y :=
  resumes_readString (fun b c => step_pstr_trimmed h ht c b) (headed _ (by simp))
    (fun _ _ => rfl) (fun _ _ => rfl) y

theorem resumes_pstr (h : d.gMode = .pstr) (y : Text) : Resumes (detector env tools) marks d y := by
  cases ht : d.gLeadTrimmed with
  | true => exact resumes_pstr_trimmed h ht y
  | false =>
    have hread : ∀ b, (detector env tools).step false (setBuffer (leadTrimmed d) b) =
        readString env valClose trim leaveValue (setBuffer (leadTrimmed d) b) :=
      fun b => step_pstr_trimmed (d := leadTrimmed d) h rfl d.calls b
    refine resumes_readLeading (fun _ => false) leadTrimmed ?_ ?_ hread
      (fun y => resumes_pstr_trimmed (d := leadTrimmed d) h rfl y)
      (fun _ _ => rfl) (fun _ => rfl) rfl (fun _ _ _ => rfl) y
    · intro t hb
      exact if_pos hb
    · intro b hb
      have hb' : (setBuffer d b).buffer ≠ [] := hb
      change step env tools false (setBuffer d b) = _
      rw [step, if_neg hb']
      simp only [show (setBuffer d b).gMode = .pstr from h,
        show (setBuffer d b).gLeadTrimmed = false from ht, Bool.false_eq_true, if_false]

theorem resumes_key (skip : Bool) (h : d.gMode = if skip then .keySkip else .key) (y : Text) :
    Resumes (detector env tools) marks d y :=
  resumes_waitFor keyClose _ (step_key skip h) (fun content => (closeKey_blind skip content).continues) y

/-- **Stopping and going on with more input is as good as having had it.** -/
theorem resumes (d : Glm47Detector) (y : Text) : Resumes (detector env tools) marks d y := by
  cases hm : d.gMode with
  | idle =>
    exact resumes_readText (step_idle hm) (headed _ (by simp)) (fun _ _ => rfl) y
  | name => exact resumes_name hm y
  | invoke =>
    exact resumes_scanTags (fun _ _ => rfl) (step_invoke false hm) (by rw [marks, hm])
      (marks_ok d) (literalTag_append _) (closeInvoke_blind false).continues
      (fun _ => (openKey_blind false).continues) y
  | invokeSkip =>
    exact resumes_scanTags (fun _ _ => rfl) (step_invoke true hm) (by rw [marks, hm])
      (marks_ok d) (literalTag_append _) (closeInvoke_blind true).continues
      (fun _ => (openKey_blind true).continues) y
  | key => exact resumes_key false hm y
  | keySkip => exact resumes_key true hm y
  | preval =>
    exact resumes_skipTo (fun _ _ => rfl) (step_preval false hm) (by rw [marks, hm])
      (headed _ (by simp)) (openValue_blind false).continues y
  | prevalSkip =>
    exact resumes_skipTo (fun _ _ => rfl) (step_preval true hm) (by rw [marks, hm])
      (headed _ (by simp)) (openValue_blind true).continues y
  | pstr => exact resumes_pstr hm y
  | pbuf =>
    refine resumes_waitFor valClose (fun content => follow (closeTyped env content))
      (fun b => ?_) (fun content => (closeTyped_blind content).continues) y
    refine step_reads (fun hb => waitFor_nil (headed _ (by simp)) _ hb) fun hb => ?_
    rw [step, if_neg hb]
    simp only [show (setBuffer d b).gMode = .pbuf from hm]
  | pskip =>
    refine resumes_waitFor valClose (fun content => follow (closeSkipped content))
      (fun b => ?_) (fun content => (closeSkipped_blind content).continues) y
    refine step_reads (fun hb => waitFor_nil (headed _ (by simp)) _ hb) fun hb => ?_
    rw [step, if_neg hb]
    simp only [show (setBuffer d b).gMode = .pskip from hm]

/-- Dropping the whitespace in front of the next tag makes no difference. -/
theorem dropsJunk (d : Glm47Detector) : DropsJunk (detector env tools) marks d := by
  cases hm : d.gMode with
  | invoke =>
    exact dropsJunk_scanTags (fun _ _ => rfl) (step_invoke false hm) (by rw [marks, hm])
      (marks_ok d) (closeInvoke_blind false).continues (fun _ => (openKey_blind false).continues)
  | invokeSkip =>
    exact dropsJunk_scanTags (fun _ _ => rfl) (step_invoke true hm) (by rw [marks, hm])
      (marks_ok d) (closeInvoke_blind true).continues (fun _ => (openKey_blind true).continues)
  | preval =>
    exact dropsJunk_skipTo (fun _ _ => rfl) (step_preval false hm) (by rw [marks, hm])
      (headed _ (by simp)) (openValue_blind false).continues
  | prevalSkip =>
    exact dropsJunk_skipTo (fun _ _ => rfl) (step_preval true hm) (by rw [marks, hm])
      (headed _ (by simp)) (openValue_blind true).continues
  | idle => exact dropsJunk_of_none (by rw [marks, hm])
  | name => exact dropsJunk_of_none (by rw [marks, hm])
  | key => exact dropsJunk_of_none (by rw [marks, hm])
  | keySkip => exact dropsJunk_of_none (by rw [marks, hm])
  | pstr => exact dropsJunk_of_none (by rw [marks, hm])
  | pbuf => exact dropsJunk_of_none (by rw [marks, hm])
  | pskip => exact dropsJunk_of_none (by rw [marks, hm])

/-! ## The detector streams -/

theorem marks_setBuffer (d : Glm47Detector) (b : Text) : marks (setBuffer d b) = marks d := rfl

theorem finishStreaming_norm (d : Glm47Detector) :
    finishStreaming (canon marks d) = finishStreaming d := by
  cases hm : d.gMode with
  | idle => rw [norm_of_none (by rw [marks, hm])]
  | _ =>
    have hn : (canon marks d).gMode = d.gMode := rfl
    simp only [finishStreaming, hn, hm]
    rfl

/-- Only text outside of blocks waits for the calls in front of it. -/
theorem step_called (hm : d.gMode ≠ .idle) : d.step env tools true = d.step env tools false := by
  cases h : d.gMode with
  | idle => exact absurd h hm
  | _ => simp only [step, h]

theorem step_defers (d : Glm47Detector) :
    d.step env tools true = d.step env tools false ∨ d.step env tools true = .done d 0 := by
  by_cases hm : d.gMode = .idle
  · refine Or.inr ?_
    simp only [step, hm, if_true, ite_self]
  · exact Or.inl (step_called hm)

theorem incremental : (detector env tools).eventLoop.Incremental push (canon marks) where
  push_append := push_append
  push_norm d y := norm_push_norm marks_setBuffer marks_ok d y
  run_norm d := by
    have h := @dropsJunk env tools d []
    rw [push_nil, push_nil] at h
    exact h.symm
  resumes := resumes

/-- **The detector streams.** -/
theorem detector_streams : (detector env tools).Streams (canon marks) where
  incremental := incremental
  finish_norm := finishStreaming_norm
  defers := step_defers
  kind called d parts h := by
    have hk := (@step_fine env tools called d).kind parts h
    cases hc : (d.gMode == .idle && !called) with
    | true =>
      refine Or.inr ⟨by simp at hc; exact hc.2, fun p hp => ?_⟩
      rw [hk p hp, hc]
      rfl
    | false =>
      refine Or.inl fun p hp => ?_
      rw [hk p hp, hc]
      rfl
  settles called d d' o h := (step_fine called d).done d' o h

end Glm47Detector

end FreeToken.Server
