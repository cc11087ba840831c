import FreeToken.Server.Reader

/-!
# The five ways to read resume

Stopping after one iteration and going on with more input is as good as having had
that input (`Resumes`), up to the whitespace in front of a tag that is still streaming:
whitespace between tags is dropped when no tag can start in it, text and string values
are released when nothing that follows can take them back.
-/

namespace FreeToken.Server

open FreeToken.Lib Buffered Calling

variable {σ : Type} [Calling σ]

/-! ## Resuming -/

section Resuming

variable (D : StreamDetector σ) (marks : σ → Marks Char)

/-- Stopping after one iteration and going on with `y` is as good as having had `y`. -/
def Resumes (s : σ) (y : Text) : Prop :=
  Loop.Same (canon marks) (D.eventLoop.run (push s y))
    ((D.eventLoop.run (push (D.eventLoop.step s).state y)).1,
      (D.eventLoop.step s).out + (D.eventLoop.run (push (D.eventLoop.step s).state y)).2)

/-- What is in front of the next tag makes no difference to the run, whatever comes. -/
def DropsJunk (s : σ) : Prop :=
  ∀ y, Loop.Same (canon marks) (D.eventLoop.run (push s y)) (D.eventLoop.run (push (canon marks s) y))

variable {D marks} {s t : σ} {y : Text} {o : Out Part}

theorem eventLoop_step {it : Iter σ (Out Part)} (h : D.step false s = it) :
    D.eventLoop.step s = it.mapOut (Out.flatMap Part.events) := by
  rw [← h]
  rfl

theorem run_of_next (h : D.step false s = .next t o) :
    D.eventLoop.run s =
      ((D.eventLoop.run t).1, Out.flatMap Part.events o + (D.eventLoop.run t).2) :=
  Loop.run_next (eventLoop_step h)

theorem run_of_done (h : D.step false s = .done t o) :
    D.eventLoop.run s = (t, Out.flatMap Part.events o) :=
  Loop.run_done (eventLoop_step h)

/-- An iteration that decides the same with more input. -/
theorem resumes_next (h : D.step false s = .next t o)
    (hy : D.step false (push s y) = .next (push t y) o) : Resumes D marks s y := by
  rw [Resumes, run_of_next hy, eventLoop_step h]
  exact Loop.Same.refl _

theorem resumes_wait (h : D.step false s = .done s 0) : Resumes D marks s y := by
  rw [Resumes, eventLoop_step h]
  simp only [Iter.mapOut, Iter.state, Iter.out, map_zero, zero_add]
  exact Loop.Same.refl _

theorem resumes_raise (h : D.step false s = .done s ⊤)
    (hy : D.step false (push s y) = .done (push s y) ⊤) : Resumes D marks s y := by
  rw [Resumes, run_of_done hy, eventLoop_step h]
  simp only [Iter.mapOut, Iter.state, Iter.out, run_of_done hy, Out.flatMap_top, WithTop.top_add]
  exact Loop.Same.refl _

/-- What follows a tag resumes. -/
theorem resumes_continues {k : σ → Text → Iter σ (Out Part)} (hk : Continues k) {rest : Text}
    (h : D.step false s = k s rest) (hy : D.step false (push s y) = k (push s y) (rest ++ y)) :
    Resumes D marks s y := by
  rcases hk s rest with ⟨t, o, hnext⟩ | hraise
  · have h0 := hnext (buffer s) []
    rw [set_buffer, List.append_nil, push_nil] at h0
    exact resumes_next (h.trans h0) (hy.trans (hnext _ y))
  · have h0 := hraise (buffer s) []
    rw [set_buffer, List.append_nil] at h0
    exact resumes_raise (h.trans h0) (hy.trans (hraise _ y))

theorem resumes_drop (hd : DropsJunk D marks s) (h : D.step false s = .done (canon marks s) 0) :
    Resumes D marks s y := by
  rw [Resumes, eventLoop_step h]
  simp only [Iter.mapOut, Iter.state, Iter.out, map_zero, zero_add]
  exact hd y

theorem norm_of_none (h : marks s = .none) : canon marks s = s := by
  rw [canon, h, Marks.junk, List.drop_zero, set_buffer]

theorem dropsJunk_of_none (h : marks s = .none) : DropsJunk D marks s := by
  intro y
  rw [norm_of_none h]
  exact Loop.Same.refl _

/-! ### Text outside blocks -/

section ReadText

variable {opn : Text} {enter : σ → σ}

/-- Released text is what the loop puts out for it in front of anything. -/
theorem readText_release (hs : ∀ b, D.step false (setBuffer s b) = readText opn enter (setBuffer s b))
    (hkeep : Keeps enter) {a x : Text} (hskip : Skips opn a x) :
    D.eventLoop.run (setBuffer s (a ++ x)) =
      ((D.eventLoop.run (setBuffer s x)).1,
        Out.ofList (a.map Event.text) + (D.eventLoop.run (setBuffer s x)).2) := by
  have h1 := hs (a ++ x)
  have h2 := hs x
  simp only [readText, buffer_set, keep, hskip.find_eq, hskip.ends_eq, set_set, hkeep s] at h1 h2
  cases hf : find opn x with
  | none =>
    have hle := endsWithPartial_le opn x
    simp only [hf, Option.map_none, drop_held hle, take_held hle] at h1 h2
    rw [run_of_done h1, run_of_done h2, textPart_events, textPart_events, List.map_append,
      Out.ofList_append]
  | some p =>
    simp only [hf, Option.map_some] at h1 h2
    rcases Nat.eq_zero_or_pos p with rfl | hp
    · rcases Nat.eq_zero_or_pos a.length with ha | ha
      · rw [List.length_eq_zero_iff.mp ha]
        simp
      · rw [if_pos (by omega), Nat.zero_add, List.drop_left, List.take_left] at h1
        rw [run_of_next h1, textPart_events]
    · rw [if_pos (by omega), drop_skip, Nat.add_comm, List.take_length_add_append] at h1
      rw [if_pos hp] at h2
      rw [run_of_next h1, run_of_next h2, textPart_events, textPart_events, List.map_append,
        Out.ofList_append, add_assoc]

theorem resumes_readText
    (hs : ∀ b, D.step false (setBuffer s b) = readText opn enter (setBuffer s b))
    (ho : Headed opn) (hkeep : Keeps enter) (y : Text) : Resumes D marks s y := by
  have h := hs (buffer s)
  have hy := hs (buffer s ++ y)
  rw [set_buffer] at h
  simp only [readText, buffer_set, set_set, hkeep s] at h hy
  cases hf : find opn (buffer s) with
  | none =>
    simp only [hf] at h
    rw [Resumes, eventLoop_step h]
    simp only [Iter.mapOut, Iter.state, Iter.out, textPart_events, keep, push_set]
    have hskip := (free_held ho hf (Nat.le_refl _)).skips ho y
    have hrun := readText_release hs hkeep hskip
    rw [← List.append_assoc, List.take_append_drop] at hrun
    rw [push, hrun]
    exact Loop.Same.refl _
  | some p =>
    have hle := find_add_length_le hf
    simp only [find_append hf y] at hy
    simp only [hf] at h
    split at h
    · rename_i hp
      rw [if_pos hp, List.drop_append_of_le_length (by omega),
        List.take_append_of_le_length (by omega)] at hy
      exact resumes_next h (hy.trans (by rw [push_set]))
    · rename_i hp
      rw [if_neg hp, List.drop_append_of_le_length (by omega)] at hy
      exact resumes_next h (hy.trans (by rw [push_set]))

end ReadText

/-! ### Between tags -/

section ScanTags

variable {γ : Type} {close opn : Text} {openTag : Text → Option (γ × Text)}
  {onClose : σ → Text → Iter σ (Out Part)} {onOpen : γ → σ → Text → Iter σ (Out Part)}

/-- A prefix that both tags skip makes no difference, but for the buffer of a detector
that waits. -/
theorem scanTags_skip {a x : Text} (hc : Skips close a x) (ho : Skips opn a x)
    (hclose : Continues onClose) (hopen : ∀ group, Continues (onOpen group)) (s : σ) :
    scanTags close opn openTag onClose onOpen (setBuffer s (a ++ x)) =
        scanTags close opn openTag onClose onOpen (setBuffer s x) ∨
      ∃ out, scanTags close opn openTag onClose onOpen (setBuffer s (a ++ x)) =
          .done (setBuffer s (a ++ x)) out ∧
        scanTags close opn openTag onClose onOpen (setBuffer s x) = .done (setBuffer s x) out := by
  have hle : max (endsWithPartial opn x) (endsWithPartial close x) ≤ x.length :=
    Nat.max_le.mpr ⟨endsWithPartial_le _ _, endsWithPartial_le _ _⟩
  simp only [scanTags, buffer_set, hc.find_eq, ho.find_eq, comesFirst_map, hc.ends_eq, ho.ends_eq]
  cases hfirst : comesFirst (find close x) (find opn x) with
  | true =>
    obtain ⟨i, hi⟩ := comesFirst_some hfirst
    simp only [if_true, hi, Option.map_some, Option.getD_some,
      show i + a.length + close.length = i + close.length + a.length by omega, drop_skip]
    exact hclose.agree s _
  | false =>
    simp only [Bool.false_eq_true, if_false]
    cases find opn x with
    | none =>
      refine Or.inl ?_
      simp only [Option.map_none, keep, buffer_set, set_set, drop_held hle]
    | some p =>
      simp only [Option.map_some, drop_skip]
      cases openTag (x.drop p) with
      | none => exact Or.inr ⟨0, rfl, rfl⟩
      | some found => exact (hopen found.1).agree s found.2

/-- Two states that do the same, or wait with buffers that count as the same. -/
theorem same_of_agree {s t : σ} (h : D.step false s = D.step false t ∨
    ∃ out, D.step false s = .done s out ∧ D.step false t = .done t out)
    (hn : canon marks s = canon marks t) :
    Loop.Same (canon marks) (D.eventLoop.run s) (D.eventLoop.run t) := by
  rcases h with h | ⟨out, h, h'⟩
  · rw [Loop.run_congr ((eventLoop_step h).trans (eventLoop_step rfl).symm)]
    exact Loop.Same.refl _
  · rw [run_of_done h, run_of_done h']
    exact ⟨hn, rfl⟩

variable (hset : ∀ s b, marks (setBuffer s b) = marks s)
include hset

theorem dropsJunk_of_skip (hok : (marks s).Ok)
    (hskip : ∀ a x, (marks s).Skips a x →
      D.step false (setBuffer s (a ++ x)) = D.step false (setBuffer s x) ∨
        ∃ out, D.step false (setBuffer s (a ++ x)) = .done (setBuffer s (a ++ x)) out ∧
          D.step false (setBuffer s x) = .done (setBuffer s x) out) : DropsJunk D marks s := by
  intro y
  have hj := Marks.junk_skips hok (buffer s) y
  have hagree := hskip _ _ hj
  have hn := norm_skip hset hj
  rw [← List.append_assoc, List.take_append_drop] at hagree hn
  rw [push, canon, push_set]
  exact same_of_agree hagree hn

theorem dropsJunk_scanTags
    (hs : ∀ b, D.step false (setBuffer s b) =
      scanTags close opn openTag onClose onOpen (setBuffer s b))
    (hm : marks s = .two close opn) (hok : (marks s).Ok)
    (hclose : Continues onClose) (hopen : ∀ group, Continues (onOpen group)) :
    DropsJunk D marks s := by
  refine dropsJunk_of_skip hset hok fun a x hskip => ?_
  rw [hm] at hskip
  rw [hs, hs]
  exact scanTags_skip hskip.1 hskip.2 hclose hopen s

theorem resumes_scanTags
    (hs : ∀ b, D.step false (setBuffer s b) =
      scanTags close opn openTag onClose onOpen (setBuffer s b))
    (hm : marks s = .two close opn) (hok : (marks s).Ok)
    (htag : ∀ t group rest, opn <+: t → openTag t = some (group, rest) →
      ∀ y, openTag (t ++ y) = some (group, rest ++ y))
    (hclose : Continues onClose) (hopen : ∀ group, Continues (onOpen group)) (y : Text) :
    Resumes D marks s y := by
  have hd := dropsJunk_scanTags hset hs hm hok hclose hopen
  have h := hs (buffer s)
  have hy := hs (buffer s ++ y)
  rw [set_buffer] at h
  rw [← push] at hy
  rw [hm] at hok
  obtain ⟨-, -, hapart⟩ := hok
  rw [scanTags] at h hy
  rw [buffer_push] at hy
  cases hfirst : comesFirst (find close (buffer s)) (find opn (buffer s)) with
  | true =>
    -- the closer comes first, whatever follows
    obtain ⟨i, hi⟩ := comesFirst_some hfirst
    rw [hfirst, if_pos rfl, hi, Option.getD_some] at h
    rw [comesFirst_append hapart hfirst y, if_pos rfl, find_append hi, Option.getD_some,
      drop_found hi] at hy
    exact resumes_continues hclose h hy
  | false =>
    rw [hfirst, if_neg Bool.false_ne_true] at h
    cases hp : find opn (buffer s) with
    | none =>
      rw [hp] at h
      refine resumes_drop hd (h.trans ?_)
      rw [canon, hm, Marks.junk, junk, hfirst, if_neg Bool.false_ne_true, hp]
      rfl
    | some p =>
      have hle := find_add_length_le hp
      rw [not_comesFirst_append hapart hp hfirst y, if_neg Bool.false_ne_true, find_append hp] at hy
      rw [hp] at h
      dsimp only at h hy
      rw [List.drop_append_of_le_length (by omega)] at hy
      cases hre : openTag ((buffer s).drop p) with
      | none =>
        rw [hre] at h
        -- the opener is not complete yet
        exact resumes_wait h
      | some found =>
        obtain ⟨group, rest⟩ := found
        rw [hre] at h
        rw [htag _ _ _ (prefix_of_find hp) hre y] at hy
        exact resumes_continues (hopen group) h hy

end ScanTags

/-! ### In front of a tag -/

section SkipTo

variable {tok : Text} {onFound : σ → Text → Iter σ (Out Part)}

theorem skipTo_skip {a x : Text} (h : Skips tok a x) (hfound : Continues onFound) (s : σ) :
    skipTo tok onFound (setBuffer s (a ++ x)) = skipTo tok onFound (setBuffer s x) ∨
      ∃ out, skipTo tok onFound (setBuffer s (a ++ x)) = .done (setBuffer s (a ++ x)) out ∧
        skipTo tok onFound (setBuffer s x) = .done (setBuffer s x) out := by
  simp only [skipTo, buffer_set, h.find_eq, h.ends_eq]
  cases find tok x with
  | none =>
    refine Or.inl ?_
    simp only [Option.map_none, keep, buffer_set, set_set, drop_held (endsWithPartial_le tok x)]
  | some p =>
    simp only [Option.map_some, show p + a.length + tok.length = p + tok.length + a.length by omega,
      drop_skip]
    exact hfound.agree s _

variable (hset : ∀ s b, marks (setBuffer s b) = marks s)
include hset

theorem dropsJunk_skipTo
    (hs : ∀ b, D.step false (setBuffer s b) = skipTo tok onFound (setBuffer s b))
    (hm : marks s = .one tok) (ht : Headed tok) (hfound : Continues onFound) :
    DropsJunk D marks s := by
  refine dropsJunk_of_skip hset (by rw [hm]; exact ht) fun a x hskip => ?_
  rw [hm] at hskip
  rw [hs, hs]
  exact skipTo_skip hskip hfound s

theorem resumes_skipTo
    (hs : ∀ b, D.step false (setBuffer s b) = skipTo tok onFound (setBuffer s b))
    (hm : marks s = .one tok) (ht : Headed tok) (hfound : Continues onFound) (y : Text) :
    Resumes D marks s y := by
  have hd := dropsJunk_skipTo hset hs hm ht hfound
  have h := hs (buffer s)
  have hy := hs (buffer s ++ y)
  rw [set_buffer] at h
  rw [← push] at hy
  rw [skipTo] at h hy
  rw [buffer_push] at hy
  cases hf : find tok (buffer s) with
  | none =>
    rw [hf] at h
    refine resumes_drop hd (h.trans ?_)
    simp only [canon, hm, Marks.junk, hf]
    rfl
  | some p =>
    rw [hf] at h
    rw [find_append hf y] at hy
    dsimp only at h hy
    rw [drop_found hf] at hy
    exact resumes_continues hfound h hy

end SkipTo

/-! ### Until a closing tag -/

theorem resumes_waitFor (tok : Text) (onFound : Text → σ → Text → Iter σ (Out Part))
    (hs : ∀ b, D.step false (setBuffer s b) = waitFor tok onFound (setBuffer s b))
    (hfound : ∀ content, Continues (onFound content)) (y : Text) : Resumes D marks s y := by
  have h := hs (buffer s)
  have hy := hs (buffer s ++ y)
  rw [set_buffer] at h
  rw [← push] at hy
  rw [waitFor] at h hy
  rw [buffer_push] at hy
  cases hf : find tok (buffer s) with
  | none =>
    rw [hf] at h
    exact resumes_wait h
  | some stop =>
    have hle := find_add_length_le hf
    rw [hf] at h
    rw [find_append hf y] at hy
    dsimp only at h hy
    rw [drop_found hf, List.take_append_of_le_length (by omega)] at hy
    exact resumes_continues (hfound _) h hy

/-! ### String values -/

/-- The part of a value that may be sent. -/
theorem emitNow_spec (p : Char → Bool) (text : Text) (n : Nat) :
    ∃ k ≤ n, (text.take n).rdropWhile p = text.take k ∧
      ((text.take n).rdropWhile p).length = min k text.length ∧
      ∀ c ∈ ((text.take n).rdropWhile p).getLast?, p c = false := by
  have hpre := (List.rdropWhile_prefix p (l := text.take n))
  have hk := List.prefix_iff_eq_take.mp hpre
  have hlen := hpre.length_le
  rw [List.length_take] at hlen
  generalize hk0 : ((text.take n).rdropWhile p).length = k at hk hlen
  refine ⟨k, by omega, ?_, by omega, ?_⟩
  · rw [hk, List.take_take, Nat.min_eq_left (by omega)]
  · intro c hc
    have hne : (text.take n).rdropWhile p ≠ [] := by
      rintro h0
      rw [h0] at hc
      simp at hc
    have hnot := List.rdropWhile_last_not p (text.take n) hne
    rw [List.getLast?_eq_some_getLast hne, Option.mem_some_iff] at hc
    rw [hc] at hnot
    simpa using hnot

section ReadString

variable {env : Env} {tok : Text} {trim : Trim} {leave : σ → σ}

/-- A released part of a value is what the loop puts out for it in front of anything. -/
theorem readString_release
    (hs : ∀ b c, D.step false (setBuffer (setCalls s c) b) =
      readString env tok trim leave (setBuffer (setCalls s c) b))
    (hleave : Keeps leave) (hcalls : ∀ s c, leave (setCalls s c) = setCalls (leave s) c)
    {a x : Text} (hlast : ∀ c ∈ a.getLast?, trim.chars c = false) (hskip : Skips tok a x) :
    D.eventLoop.run (setBuffer s (a ++ x)) =
      ((D.eventLoop.run (setBuffer (setCalls s ((calls s).addArgs (Json.escape a))) x)).1,
        Out.ofList ((Json.escape a).map (Event.argument (calls s).currentToolId)) +
          (D.eventLoop.run (setBuffer (setCalls s ((calls s).addArgs (Json.escape a))) x)).2) := by
  have h1 := hs (a ++ x) (calls s)
  have h2 := hs x ((calls s).addArgs (Json.escape a))
  rw [setCalls_calls] at h1
  simp only [readString, buffer_set, hskip.find_eq, hskip.ends_eq, calls_setBuffer,
    calls_setCalls, setCalls_setBuffer, setCalls_setCalls, set_set, hleave _ _, hcalls] at h1 h2
  cases hf : find tok x with
  | none =>
    simp only [hf, Option.map_none, take_held (endsWithPartial_le tok x),
      Trim.rdropWhile_append hlast] at h1
    simp only [List.length_append, List.drop_length_add_append, Json.escape_append] at h1
    simp only [hf, CallState.addArgs_append] at h2
    rw [run_of_done h1, run_of_done h2, CallState.argsPart_events, CallState.argsPart_events,
      List.map_append, Out.ofList_append]
    rfl
  | some p =>
    simp only [hf, Option.map_some, Nat.add_comm p a.length, List.take_length_add_append,
      Trim.trailing_append hlast, Json.escape_append, List.append_assoc] at h1
    rw [show a.length + p + tok.length = p + tok.length + a.length by omega, drop_skip] at h1
    simp only [hf, CallState.addArgs_append] at h2
    rw [run_of_next h1, run_of_next h2, CallState.argsPart_events, CallState.argsPart_events,
      List.map_append, Out.ofList_append, add_assoc]
    rfl

theorem resumes_readString
    (hs : ∀ b c, D.step false (setBuffer (setCalls s c) b) =
      readString env tok trim leave (setBuffer (setCalls s c) b))
    (ht : Headed tok) (hleave : Keeps leave)
    (hcalls : ∀ s c, leave (setCalls s c) = setCalls (leave s) c) (y : Text) :
    Resumes D marks s y := by
  have h := hs (buffer s) (calls s)
  have hy := hs (buffer s ++ y) (calls s)
  rw [setCalls_calls] at h hy
  rw [set_buffer] at h
  simp only [readString, buffer_set, calls_setBuffer, setCalls_setBuffer, set_set,
    hleave s] at h hy
  cases hf : find tok (buffer s) with
  | none =>
    have hend := endsWithPartial_le tok (buffer s)
    obtain ⟨k, hk, htake, hlen, hlast⟩ := emitNow_spec trim.chars (buffer s)
      ((buffer s).length - endsWithPartial tok (buffer s))
    rw [Nat.min_eq_left (by omega)] at hlen
    have hskip := ((free_of_endsWithPartial ht hf).shorten hk).skips ht y
    simp only [hf] at h
    rw [Resumes, eventLoop_step h]
    simp only [Iter.mapOut, Iter.state, Iter.out, CallState.argsPart_events, hlen, push_set]
    rw [htake] at hlast ⊢
    have hrun := readString_release hs hleave hcalls hlast hskip
    rw [← List.append_assoc, List.take_append_drop] at hrun
    rw [push, hrun]
    exact Loop.Same.refl _
  | some stop =>
    have hle := find_add_length_le hf
    simp only [hf] at h
    simp only [find_append hf y, drop_found hf,
      List.take_append_of_le_length (show stop ≤ (buffer s).length by omega)] at hy
    exact resumes_next h (hy.trans (by rw [push_set]))

end ReadString

/-! ### The start of a string value -/

/-- More input behind a text that is not all trimmed. -/
theorem leading_append (trim : Trim) {a : Text} (b : Text)
    (h : trim.leading a ≠ [] ∨ trim.single = true) (ha : a ≠ []) :
    trim.leading (a ++ b) = trim.leading a ++ b := by
  obtain ⟨c, cs, rfl⟩ := List.exists_cons_of_ne_nil ha
  unfold Trim.leading at h ⊢
  cases hsingle : trim.single with
  | true =>
    simp only [if_true, List.cons_append]
    split <;> rfl
  | false =>
    simp only [hsingle, Bool.false_eq_true, if_false, or_false] at h ⊢
    rw [List.dropWhile_append]
    simp [h]

theorem leading_of_trimmed {trim : Trim} {a : Text} (b : Text) (h : trim.leading a = [])
    (hs : trim.single = false) : trim.leading (a ++ b) = trim.leading b := by
  unfold Trim.leading at h ⊢
  simp only [hs, Bool.false_eq_true, if_false] at h ⊢
  exact List.dropWhile_append_of_pos (List.dropWhile_eq_nil_iff.mp h)

section ReadLeading

variable {env : Env} {tok : Text} {trim : Trim} {after : Text → Bool} {trimmed leave : σ → σ}

/-- What has been trimmed away makes no difference. -/
theorem readLeading_trimmed
    (hs : ∀ b ≠ [], D.step false (setBuffer s b) =
      readLeading env tok trim after trimmed leave (setBuffer s b))
    (hread : ∀ b, D.step false (setBuffer (trimmed s) b) =
      readString env tok trim leave (setBuffer (trimmed s) b))
    (hkeep : Keeps trimmed) (hafter : after [] = trim.single) {a : Text} (ha : a ≠ [])
    (hnil : trim.leading a = []) (hsingle : trim.single = false) (y : Text) :
    D.eventLoop.run (setBuffer s (a ++ y)) = D.eventLoop.run (setBuffer s y) := by
  have h1 := hs (a ++ y) (by simp [ha])
  have hne : trim.leading y ≠ a ++ y := by
    intro heq
    have hlen := congrArg List.length heq
    have := (Trim.leading_suffix trim y).length_le
    have := List.length_pos_iff.mpr ha
    rw [List.length_append] at hlen
    omega
  simp only [readLeading, buffer_set, leading_of_trimmed y hnil hsingle, if_pos hne] at h1
  by_cases hy : y = []
  · subst hy
    have hl : trim.leading [] = [] := List.suffix_nil.mp (Trim.leading_suffix trim [])
    simp only [hl, hafter, hsingle, Bool.false_eq_true, if_false, set_set] at h1
    rw [run_of_next h1, map_zero, zero_add]
  · have h2 := hs y hy
    simp only [readLeading, buffer_set] at h2
    by_cases hyt : trim.leading y = y
    · rw [if_neg (by simp [hyt]), hkeep] at h2
      rw [hyt] at h1
      cases haft : after y with
      | true =>
        simp only [haft, if_true, hkeep s, set_set] at h1
        rw [run_of_next h1, map_zero, zero_add]
        exact Loop.run_congr ((eventLoop_step (hread y)).trans (eventLoop_step h2).symm)
      | false =>
        simp only [haft, Bool.false_eq_true, if_false, set_set] at h1
        rw [run_of_next h1, map_zero, zero_add]
    · rw [if_pos hyt] at h2
      refine Loop.run_congr ((eventLoop_step h1).trans (Eq.trans ?_ (eventLoop_step h2).symm))
      cases after (trim.leading y) <;> simp [hkeep s]

theorem resumes_readLeading (after : Text → Bool) (trimmed : σ → σ)
    (hempty : ∀ t : σ, buffer t = [] → D.step false t = .done t 0)
    (hs : ∀ b ≠ [], D.step false (setBuffer s b) =
      readLeading env tok trim after trimmed leave (setBuffer s b))
    (hread : ∀ b, D.step false (setBuffer (trimmed s) b) =
      readString env tok trim leave (setBuffer (trimmed s) b))
    (hres : ∀ y, Resumes D marks (trimmed s) y)
    (hkeep : Keeps trimmed) (hbuf : ∀ t : σ, buffer (trimmed t) = buffer t)
    (hafter : after [] = trim.single)
    (hsome : ∀ text y, text ≠ [] ∨ trim.single = true → after (text ++ y) = after text) (y : Text) :
    Resumes D marks s y := by
  by_cases hb : buffer s = []
  · exact resumes_wait (hempty s hb)
  have h := hs (buffer s) hb
  have hy := hs (buffer s ++ y) (by simp [hb])
  rw [set_buffer] at h
  rw [← push] at hy
  by_cases htrim : trim.leading (buffer s) = buffer s
  · -- nothing to trim: the value starts here
    have hlead := leading_append trim y (Or.inl (by rw [htrim]; exact hb)) hb
    simp only [readLeading, htrim, ne_eq, not_true_eq_false, if_false] at h
    simp only [readLeading, buffer_push, hlead, htrim, ne_eq, not_true_eq_false, if_false] at hy
    have hread0 := hread (buffer s)
    have hread1 := hread (buffer s ++ y)
    rw [← hbuf s, set_buffer] at hread0
    have hpush : trimmed (push s y) = setBuffer (trimmed s) (buffer s ++ y) := by
      rw [push, hkeep]
    rw [hpush] at hy
    have hstep : D.eventLoop.step s = D.eventLoop.step (trimmed s) :=
      (eventLoop_step h).trans (eventLoop_step hread0).symm
    have hrun : D.eventLoop.run (push s y) = D.eventLoop.run (push (trimmed s) y) := by
      rw [show push (trimmed s) y = setBuffer (trimmed s) (buffer s ++ y) by rw [push, hbuf]]
      exact Loop.run_congr ((eventLoop_step hy).trans (eventLoop_step hread1).symm)
    have := hres y
    rw [Resumes] at this ⊢
    rw [hrun, hstep]
    exact this
  · simp only [readLeading, if_pos htrim] at h
    by_cases hleft : trim.leading (buffer s) ≠ [] ∨ trim.single = true
    · -- the rest of the buffer is the value's start, or one character was all to trim
      have hlead := leading_append trim y hleft hb
      have hne : trim.leading (buffer s) ++ y ≠ buffer s ++ y := by simpa using htrim
      simp only [readLeading, buffer_push, hlead, if_pos hne, hsome _ y hleft] at hy
      refine resumes_next h (hy.trans ?_)
      cases after (trim.leading (buffer s)) with
      | true => simp [push, hkeep s]
      | false => simp [push]
    · -- all of the buffer was trimmed: trimming goes on with the input
      simp only [not_or, not_not, Bool.not_eq_true] at hleft
      obtain ⟨hnil, hsingle⟩ := hleft
      simp only [hnil, hafter, hsingle, Bool.false_eq_true, if_false] at h
      have hrun := readLeading_trimmed hs hread hkeep hafter hb hnil hsingle y
      rw [Resumes, eventLoop_step h]
      simp only [Iter.mapOut, Iter.state, Iter.out, map_zero, zero_add, push_set, List.nil_append]
      rw [push, hrun]
      exact Loop.Same.refl _

end ReadLeading

end Resuming

end FreeToken.Server
