import FreeToken.Server.ReaderResumes

/-!
# The five ways to read make progress

An iteration that goes on makes the buffer shorter, and so does one that stops having
put something out (`Fine`): the loops of the detectors end, and so does re-feeding them.
-/

namespace FreeToken.Server

open FreeToken.Lib Buffered Calling

variable {σ : Type} [Calling σ]

section Progress

/-- An iteration makes the state smaller when it goes on, and when it stops having put
something out; it puts out only text, or only calls. -/
structure Fine (size : σ → Nat) (text : Bool) (s : σ) (it : Iter σ (Out Part)) : Prop where
  next : ∀ t o, it = .next t o → size t < size s
  done : ∀ t o, it = .done t o → size t ≤ size s ∧ (size t < size s ∨ o = 0 ∨ o = ⊤)
  kind : ∀ parts, it.out = Out.ofList parts → ∀ p ∈ parts, p.isCall = !text

variable {size : σ → Nat} {text : Bool} {s t : σ} {o : Out Part}

theorem kind_zero {parts : List Part} (h : (0 : Out Part) = Out.ofList parts) (text : Bool) :
    ∀ p ∈ parts, p.isCall = !text := by
  rw [Out.ofList_injective (h.symm.trans Out.ofList_nil.symm)]
  simp

theorem kind_argsPart {c : CallState} {fragment : Text} {parts : List Part}
    (h : c.argsPart fragment = Out.ofList parts) : ∀ p ∈ parts, p.isCall = !false := by
  rw [CallState.argsPart] at h
  obtain rfl := Out.ofList_injective h
  intro p hp
  split at hp
  · simp at hp
  · rw [List.mem_singleton] at hp
    rw [hp]
    rfl

omit [Calling σ] in
/-- A change of mode puts out nothing. -/
theorem quiet_kind {s t : σ} {o : Out Part} (h : some (s, 0) = some (t, o))
    (parts : List Part) (ho : o = Out.ofList parts) : ∀ p ∈ parts, p.isCall = !false := by
  simp only [Option.some.injEq, Prod.mk.injEq] at h
  exact kind_zero (h.2.trans ho) false

theorem kind_single {item : ToolCallItem} {parts : List Part}
    (h : Out.ofList [.call item] = Out.ofList parts) : ∀ p ∈ parts, p.isCall = !false := by
  obtain rfl := Out.ofList_injective h
  simp [Part.isCall]

theorem kind_textPart {t : Text} {parts : List Part} (h : textPart t = Out.ofList parts) :
    ∀ p ∈ parts, p.isCall = !true := by
  rw [textPart] at h
  obtain rfl := Out.ofList_injective h
  intro p hp
  split at hp
  · simp at hp
  · rw [List.mem_singleton] at hp
    rw [hp]
    rfl

omit [Calling σ] in
theorem fine_next (h : size t < size s)
    (hkind : ∀ parts, o = Out.ofList parts → ∀ p ∈ parts, p.isCall = !text) :
    Fine size text s (.next t o) where
  next t' o' heq := by
    simp only [Iter.next.injEq] at heq
    rw [← heq.1]
    exact h
  done t' o' heq := by simp at heq
  kind := hkind

omit [Calling σ] in
theorem fine_done (h : size t ≤ size s) (ho : size t < size s ∨ o = 0 ∨ o = ⊤)
    (hkind : ∀ parts, o = Out.ofList parts → ∀ p ∈ parts, p.isCall = !text) :
    Fine size text s (.done t o) where
  next t' o' heq := by simp at heq
  done t' o' heq := by
    simp only [Iter.done.injEq] at heq
    obtain ⟨rfl, rfl⟩ := heq
    exact ⟨h, ho⟩
  kind := hkind

omit [Calling σ] in
theorem fine_wait : Fine size text s (.done s 0) :=
  fine_done (Nat.le_refl _) (Or.inr (Or.inl rfl)) fun _ h => kind_zero h text

omit [Calling σ] in
theorem fine_raise : Fine size text s (.done s ⊤) :=
  fine_done (Nat.le_refl _) (Or.inr (Or.inr rfl)) fun _ h => absurd h.symm WithTop.coe_ne_top

variable (hsize : ∀ s t : σ, (buffer t).length < (buffer s).length → size t < size s)
include hsize

theorem fine_shorter (h : (buffer t).length < (buffer s).length)
    (hkind : ∀ parts, o = Out.ofList parts → ∀ p ∈ parts, p.isCall = !text) :
    Fine size text s (.next t o) := fine_next (hsize s t h) hkind

/-- An effect with the text behind its tag. -/
theorem fine_follow {f : Effect σ} {rest : Text} (h : rest.length < (buffer s).length)
    (hkind : ∀ t o, f s = some (t, o) → ∀ parts, o = Out.ofList parts →
      ∀ p ∈ parts, p.isCall = !text) : Fine size text s (follow f s rest) := by
  rw [follow]
  split
  · exact fine_raise
  · rename_i t o hf
    exact fine_shorter hsize (by rw [buffer_set]; exact h) (hkind t o hf)

theorem fine_keep (s : σ) (n : Nat) : Fine size text s (.done (keep s n) 0) := by
  refine fine_done ?_ (Or.inr (Or.inl rfl)) fun _ h => kind_zero h text
  rw [keep]
  rcases Nat.eq_zero_or_pos ((buffer s).length - n) with h | h
  · rw [h, List.drop_zero, set_buffer]
  · exact (hsize s _ (by rw [buffer_set, List.length_drop]; omega)).le

omit hsize in
theorem found_lt {tok : Text} (ht : Headed tok) {i : Nat} (h : find tok (buffer s) = some i) :
    ((buffer s).drop (i + tok.length)).length < (buffer s).length := by
  obtain ⟨c, rest, rfl, -⟩ := ht
  have := find_add_length_le h
  rw [List.length_drop]
  simp only [List.length_cons] at this ⊢
  omega

theorem fine_readText {opn : Text} (ho : Headed opn) (enter : σ → σ) (s : σ) :
    Fine size true s (readText opn enter s) := by
  rw [readText]
  cases hf : find opn (buffer s) with
  | none =>
    dsimp only
    rcases Nat.eq_zero_or_pos ((buffer s).length - endsWithPartial opn (buffer s)) with h | h
    · rw [h, keep, h, List.drop_zero, set_buffer]
      exact fine_wait
    · have hlt := hsize s (keep s (endsWithPartial opn (buffer s)))
        (by rw [keep, buffer_set, List.length_drop]; omega)
      exact fine_done hlt.le (Or.inl hlt) fun _ => kind_textPart
  | some pos =>
    have hlt := found_lt ho hf
    rw [List.length_drop] at hlt
    dsimp only
    split
    · refine fine_shorter hsize ?_ fun _ => kind_textPart
      rw [buffer_set, List.length_drop]
      omega
    · refine fine_shorter hsize ?_ fun _ h => kind_zero h true
      obtain rfl : pos = 0 := by omega
      rw [buffer_set, List.length_drop]
      omega

theorem fine_scanTags {γ : Type} {close opn : Text} {openTag : Text → Option (γ × Text)}
    {onClose : σ → Text → Iter σ (Out Part)} {onOpen : γ → σ → Text → Iter σ (Out Part)}
    (hc : Headed close)
    (htag : ∀ t group rest, opn <+: t → openTag t = some (group, rest) → rest.length < t.length)
    (hclose : ∀ rest, rest.length < (buffer s).length → Fine size text s (onClose s rest))
    (hopen : ∀ group rest, rest.length < (buffer s).length → Fine size text s (onOpen group s rest)) :
    Fine size text s (scanTags close opn openTag onClose onOpen s) := by
  rw [scanTags]
  split
  · rename_i hfirst
    obtain ⟨i, hi⟩ := comesFirst_some hfirst
    rw [hi]
    exact hclose _ (found_lt hc hi)
  · cases hp : find opn (buffer s) with
    | none => exact fine_keep hsize s _
    | some p =>
      dsimp only
      cases ho : openTag ((buffer s).drop p) with
      | none => exact fine_wait
      | some found =>
        have hlt := htag _ _ _ (prefix_of_find hp) ho
        rw [List.length_drop] at hlt
        exact hopen found.1 found.2 (by omega)

theorem fine_skipTo {tok : Text} {onFound : σ → Text → Iter σ (Out Part)} (ht : Headed tok)
    (hfound : ∀ rest, rest.length < (buffer s).length → Fine size text s (onFound s rest)) :
    Fine size text s (skipTo tok onFound s) := by
  rw [skipTo]
  cases hf : find tok (buffer s) with
  | none => exact fine_keep hsize s _
  | some p => exact hfound _ (found_lt ht hf)

omit hsize in
theorem fine_waitFor {tok : Text} {onFound : Text → σ → Text → Iter σ (Out Part)} (ht : Headed tok)
    (hfound : ∀ content rest, rest.length < (buffer s).length →
      Fine size text s (onFound content s rest)) :
    Fine size text s (waitFor tok onFound s) := by
  rw [waitFor]
  cases hf : find tok (buffer s) with
  | none => exact fine_wait
  | some p => exact hfound _ _ (found_lt ht hf)

theorem fine_readString {env : Env} {tok : Text} {trim : Trim} {leave : σ → σ} (ht : Headed tok)
    (s : σ) : Fine size false s (readString env tok trim leave s) := by
  rw [readString]
  cases hf : find tok (buffer s) with
  | none =>
    obtain ⟨k, -, htake, hlen, -⟩ := emitNow_spec trim.chars (buffer s)
      ((buffer s).length - endsWithPartial tok (buffer s))
    dsimp only
    rcases Nat.eq_zero_or_pos ((((buffer s).take ((buffer s).length -
        endsWithPartial tok (buffer s))).rdropWhile trim.chars).length) with h0 | hpos
    · rw [h0, List.length_eq_zero_iff.mp h0, Json.escape_nil, CallState.addArgs_nil, setCalls_calls,
        List.drop_zero, set_buffer]
      exact fine_wait
    · have hlt := hsize s (setBuffer (setCalls s ((calls s).addArgs (Json.escape
          (((buffer s).take ((buffer s).length - endsWithPartial tok (buffer s))).rdropWhile
            trim.chars)))) ((buffer s).drop ((((buffer s).take ((buffer s).length -
              endsWithPartial tok (buffer s))).rdropWhile trim.chars).length)))
        (by rw [buffer_set, List.length_drop]; omega)
      exact fine_done hlt.le (Or.inl hlt) fun _ => kind_argsPart
  | some stop =>
    refine fine_shorter hsize ?_ fun _ => kind_argsPart
    rw [buffer_set]
    exact found_lt ht hf

theorem fine_readLeading {env : Env} {tok : Text} {trim : Trim} {after : Text → Bool}
    (trimmed : σ → σ) {leave : σ → σ} (ht : Headed tok) (htrim : ∀ s : σ, size (trimmed s) = size s) (s : σ) :
    Fine size false s (readLeading env tok trim after trimmed leave s) := by
  rw [readLeading]
  split
  · rename_i h
    refine fine_shorter hsize ?_ fun _ h => kind_zero h false
    rw [buffer_set]
    exact Trim.leading_shrinks h
  · have hr : Fine size false (trimmed s) (readString env tok trim leave (trimmed s)) :=
      fine_readString hsize ht (trimmed s)
    exact ⟨fun t o h => htrim s ▸ hr.next t o h, fun t o h => htrim s ▸ hr.done t o h, hr.kind⟩

end Progress

end FreeToken.Server
