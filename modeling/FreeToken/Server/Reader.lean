import FreeToken.Server.StreamDriver

/-!
# How the modes of a detector read their buffer

The modes of the streaming detectors read their buffers in five ways: text that
streams until a block opens, the space between two tags, the space in front of one,
something held until its closing tag, and a string value that streams. Each is a
definition here with the iteration it performs; each resumes (`Resumes`): stopping and
going on with more input is as good as having had that input.
-/

namespace FreeToken.Server

open FreeToken.Lib Buffered

/-- A detector's state: its buffer and its ledger of calls. -/
class Calling (σ : Type) extends Buffered Char σ where
  calls : σ → CallState
  setCalls : σ → CallState → σ
  calls_setCalls : ∀ s c, calls (setCalls s c) = c
  calls_setBuffer : ∀ s b, calls (setBuffer s b) = calls s
  setCalls_setCalls : ∀ s c c', setCalls (setCalls s c) c' = setCalls s c'
  setCalls_calls : ∀ s, setCalls s (calls s) = s
  setCalls_setBuffer : ∀ s b c, setCalls (setBuffer s b) c = setBuffer (setCalls s c) b

namespace Calling

attribute [simp] calls_setCalls calls_setBuffer setCalls_setCalls setCalls_calls

end Calling

open Calling

variable {σ : Type} [Calling σ]

/-! ## Five ways to read -/

/-- The last `n` characters of the buffer. -/
def keep (s : σ) (n : Nat) : σ := setBuffer s ((buffer s).drop ((buffer s).length - n))

/-- Text streams live until a block opens. -/
def readText (opn : Text) (enter : σ → σ) (s : σ) : Iter σ (Out Part) :=
  match find opn (buffer s) with
  | none =>
    let hold := endsWithPartial opn (buffer s)
    .done (keep s hold) (textPart ((buffer s).take ((buffer s).length - hold)))
  | some pos =>
    if 0 < pos then .next (setBuffer s ((buffer s).drop pos)) (textPart ((buffer s).take pos))
    else .next (setBuffer (enter s) ((buffer s).drop opn.length)) 0

/-- Between tags: what is in front of the next closing or opening tag is whitespace, and
an opening tag waits until all of it has arrived. -/
def scanTags {γ : Type} (close opn : Text) (openTag : Text → Option (γ × Text))
    (onClose : σ → Text → Iter σ (Out Part)) (onOpen : γ → σ → Text → Iter σ (Out Part)) (s : σ) :
    Iter σ (Out Part) :=
  if comesFirst (find close (buffer s)) (find opn (buffer s)) then
    onClose s ((buffer s).drop ((find close (buffer s)).getD 0 + close.length))
  else
    match find opn (buffer s) with
    | some pos =>
      match openTag ((buffer s).drop pos) with
      | none => .done s 0  -- tag still streaming
      | some (group, rest) => onOpen group s rest
    | none =>
      .done (keep s (max (endsWithPartial opn (buffer s)) (endsWithPartial close (buffer s)))) 0

/-- Whitespace in front of a tag. -/
def skipTo (tok : Text) (onFound : σ → Text → Iter σ (Out Part)) (s : σ) : Iter σ (Out Part) :=
  match find tok (buffer s) with
  | none => .done (keep s (endsWithPartial tok (buffer s))) 0
  | some pos => onFound s ((buffer s).drop (pos + tok.length))

/-- Something is held until its closing tag. -/
def waitFor (tok : Text) (onFound : Text → σ → Text → Iter σ (Out Part)) (s : σ) :
    Iter σ (Out Part) :=
  match find tok (buffer s) with
  | none => .done s 0
  | some stop => onFound ((buffer s).take stop) s ((buffer s).drop (stop + tok.length))

/-- A string value streams as JSON-escaped fragments; its end may be trimmed and is
held back. -/
def readString (env : Env) (tok : Text) (trim : Trim) (leave : σ → σ) (s : σ) :
    Iter σ (Out Part) :=
  match find tok (buffer s) with
  | none =>
    let safe := (buffer s).take ((buffer s).length - endsWithPartial tok (buffer s))
    let emitNow := safe.rdropWhile trim.chars
    .done
      (setBuffer (setCalls s ((calls s).addArgs (Json.escape emitNow)))
        ((buffer s).drop emitNow.length))
      ((calls s).argsPart (Json.escape emitNow))
  | some stop =>
    let fragment := Json.escape (trim.trailing ((buffer s).take stop)) ++ ['"']
    .next
      (setBuffer (setCalls (leave s) (((calls s).addArgs fragment).updatePrev env))
        ((buffer s).drop (stop + tok.length)))
      ((calls s).argsPart fragment)

/-- The start of a string value: what is trimmed there, and the value from its first
character on. `after`: nothing more is trimmed once this is left. -/
def readLeading (env : Env) (tok : Text) (trim : Trim) (after : Text → Bool) (trimmed leave : σ → σ)
    (s : σ) : Iter σ (Out Part) :=
  let text := trim.leading (buffer s)
  if text ≠ buffer s then
    .next (setBuffer (if after text then trimmed s else s) text) 0
  else readString env tok trim leave (trimmed s)

/-! ## What follows a tag -/

/-- What follows a tag takes the text behind it for its buffer, or raises and leaves the
state alone. -/
def Continues (k : σ → Text → Iter σ (Out Part)) : Prop :=
  ∀ s rest, (∃ t o, ∀ b y, k (setBuffer s b) (rest ++ y) = .next (push t y) o) ∨
    ∀ b y, k (setBuffer s b) (rest ++ y) = .done (setBuffer s b) ⊤

/-- What follows a tag does the same for two buffers, but for the one it leaves alone. -/
theorem Continues.agree {k : σ → Text → Iter σ (Out Part)} (hk : Continues k) (s : σ)
    {a b : Text} (rest : Text) :
    k (setBuffer s a) rest = k (setBuffer s b) rest ∨
      ∃ out, k (setBuffer s a) rest = .done (setBuffer s a) out ∧
        k (setBuffer s b) rest = .done (setBuffer s b) out := by
  rcases hk s rest with ⟨t, o, hnext⟩ | hraise
  · have ha := hnext a []
    have hb := hnext b []
    rw [List.append_nil] at ha hb
    exact Or.inl (ha.trans hb.symm)
  · have ha := hraise a []
    have hb := hraise b []
    rw [List.append_nil] at ha hb
    exact Or.inr ⟨⊤, ha, hb⟩

/-- What a tag does to the state and what it puts out; none when that raises. -/
abbrev Effect (σ : Type) := σ → Option (σ × Out Part)

/-- Go on with the text behind the tag. -/
def follow (f : Effect σ) (s : σ) (rest : Text) : Iter σ (Out Part) :=
  match f s with
  | none => .done s ⊤
  | some (t, out) => .next (setBuffer t rest) out

/-- An effect does not look at the buffer. -/
def Blind (f : Effect σ) : Prop :=
  ∀ s b, f (setBuffer s b) = (f s).map fun r => (setBuffer r.1 b, r.2)

theorem Blind.continues {f : Effect σ} (hf : Blind f) : Continues (follow f) := by
  intro s rest
  cases h : f s with
  | none =>
    refine Or.inr fun b y => ?_
    simp only [follow, hf s b, h, Option.map_none]
  | some r =>
    refine Or.inl ⟨setBuffer r.1 rest, r.2, fun b y => ?_⟩
    simp only [follow, hf s b, h, Option.map_some, set_set, push_set]

/-- A change of mode does not look at the buffer. -/
def Keeps (f : σ → σ) : Prop := ∀ s b, f (setBuffer s b) = setBuffer (f s) b

theorem drop_found {tok buf : Text} {i : Nat} (h : find tok buf = some i) (y : Text) :
    (buf ++ y).drop (i + tok.length) = buf.drop (i + tok.length) ++ y :=
  List.drop_append_of_le_length (find_add_length_le h)

theorem find_nil {tok : Text} (h : Headed tok) : find tok [] = none := by
  obtain ⟨c, rest, rfl, -⟩ := h
  simp [find]

/-- Without input there is nothing to do. -/
theorem keep_nil {s : σ} (h : buffer s = []) (n : Nat) : keep s n = s := by
  rw [keep, h, List.drop_nil, ← h, set_buffer]

theorem readText_nil {opn : Text} (ho : Headed opn) (enter : σ → σ) {s : σ} (h : buffer s = []) :
    readText opn enter s = .done s 0 := by
  simp [readText, h, find_nil ho, keep_nil h, textPart]

theorem scanTags_nil {γ : Type} {close opn : Text} (hc : Headed close) (ho : Headed opn)
    (openTag : Text → Option (γ × Text)) (onClose : σ → Text → Iter σ (Out Part))
    (onOpen : γ → σ → Text → Iter σ (Out Part)) {s : σ} (h : buffer s = []) :
    scanTags close opn openTag onClose onOpen s = .done s 0 := by
  simp [scanTags, h, find_nil hc, find_nil ho, comesFirst, keep_nil h]

theorem skipTo_nil {tok : Text} (ht : Headed tok) (onFound : σ → Text → Iter σ (Out Part)) {s : σ}
    (h : buffer s = []) : skipTo tok onFound s = .done s 0 := by
  simp [skipTo, h, find_nil ht, keep_nil h]

theorem waitFor_nil {tok : Text} (ht : Headed tok) (onFound : Text → σ → Text → Iter σ (Out Part))
    {s : σ} (h : buffer s = []) : waitFor tok onFound s = .done s 0 := by
  simp [waitFor, h, find_nil ht]

theorem readString_nil {tok : Text} (ht : Headed tok) (env : Env) (trim : Trim) (leave : σ → σ)
    {s : σ} (h : buffer s = []) : readString env tok trim leave s = .done s 0 := by
  have hs : setBuffer s [] = s := by rw [← h, set_buffer]
  simp [readString, h, find_nil ht, CallState.argsPart, hs]

end FreeToken.Server
