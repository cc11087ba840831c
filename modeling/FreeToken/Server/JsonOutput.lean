import FreeToken.Lib.JsonReader
import FreeToken.Server.Types

/-!
# JSON mode

`server/json_output.py`: the wrappers are cut off a reply by regular expressions, and the value is
read from what is left, or from its first balanced span. Main results:

* `span_enclosed`: the scan of a value ends where the value does.
* `delivered_of_agrees`: a reply with no wrapper in its strings gives its value.
* `fence_in_string`: one with a fence in a string is refused.
-/

namespace FreeToken.Server

open FreeToken.Lib

namespace JsonOutput

/-! ## The regular expressions -/

/-- A letter each, whatever its case: `re.IGNORECASE` also takes the dotted and the dotless `i` and
the Kelvin sign. -/
def thinkName : List Text :=
  [['t', 'T'], ['h', 'H'], ['i', 'I', Char.ofNat 0x130, Char.ofNat 0x131], ['n', 'N'],
    ['k', 'K', Char.ofNat 0x212A]]

/-- One character of each class, and what is behind them. -/
def matchClasses : List Text → Text → Option Text
  | [], text => some text
  | _ :: _, [] => none
  | cls :: classes, c :: text => if c ∈ cls then matchClasses classes text else none

/-- What is behind `<think\b[^>]*>`. -/
def openTag (isWord : Char → Bool) (text : Text) : Option Text :=
  match matchClasses (['<'] :: thinkName) text with
  | none => none
  | some rest =>
    if rest.head?.any isWord then none
    else
      match rest.dropWhile (· != '>') with
      | [] => none
      | _ :: after => some after

/-- What is behind `</think\s*>`. -/
def closeTag (text : Text) : Option Text :=
  match matchClasses (['<'] :: ['/'] :: thinkName) text with
  | none => none
  | some rest =>
    if (rest.dropWhile isSpace).head? = some '>' then some (rest.dropWhile isSpace).tail else none

/-- The leftmost match: what is in front of it, and what is behind. -/
def search (m : Text → Option Text) : Text → Option (Text × Text)
  | [] => (m []).map fun after => ([], after)
  | c :: rest =>
    match m (c :: rest) with
    | some after => some ([], after)
    | none => (search m rest).map fun r => (c :: r.1, r.2)

/-- `_THINK_BLOCK`. -/
def thinkBlock (isWord : Char → Bool) (text : Text) : Option Text :=
  (openTag isWord text).bind fun body => (search closeTag body).map Prod.snd

/-- Every match becomes a blank, `fuel` of them at most. -/
def substitute (m : Text → Option Text) : Nat → Text → Text
  | 0, text => text
  | fuel + 1, text =>
    match search m text with
    | none => text
    | some (before, after) => before ++ ' ' :: substitute m fuel after

/-- `re.sub(" ", text)`; no match is empty. -/
def sub (m : Text → Option Text) (text : Text) : Text := substitute m text.length text

/-- `"</think"` as `text.lower()` has it. -/
def loweredClose : List Text :=
  [['<'], ['/'], ['t', 'T'], ['h', 'H'], ['i', 'I'], ['n', 'N'], ['k', 'K', Char.ofNat 0x212A]]

def fenceMark : Text := "```".toList

/-- `[a-zA-Z0-9_-]`. -/
def isFenceWord (c : Char) : Bool := c.isAlphanum || c == '_' || c == '-'

/-- What is behind the mark of a fence and its language. -/
def fenceBody (text : Text) : Text :=
  (text.dropWhile isFenceWord).dropWhile isSpace

/-- The group of `_FENCE`. -/
def fence (text : Text) : Option Text :=
  match find fenceMark text with
  | none => none
  | some i =>
    let body := fenceBody (text.drop (i + fenceMark.length))
    (find fenceMark body).map fun j => rstrip (body.take j)

/-- `_THINK_CLOSE.sub("", text)`, where there is a closer at all. -/
def dropUnopened (text : Text) : Text :=
  if (search (matchClasses loweredClose) text).isSome then
    match search closeTag text with
    | none => text
    | some r => r.2
  else text

def stripWrappers (isWord : Char → Bool) (text : Text) : Text :=
  let text := sub (openTag isWord) (dropUnopened (sub (thinkBlock isWord) text))
  match fence text with
  | some group => strip group
  | none => strip text

/-! ## The value -/

/-- How many characters the scan takes until `stack`, the closers it waits for, is empty. -/
def balancedFrom (stack : Text) (inString escaped : Bool) : Text → Option Nat
  | [] => none
  | ch :: rest =>
    if inString then
      if escaped then (balancedFrom stack true false rest).map (· + 1)
      else if ch = '\\' then (balancedFrom stack true true rest).map (· + 1)
      else if ch = '"' then (balancedFrom stack false false rest).map (· + 1)
      else (balancedFrom stack true false rest).map (· + 1)
    else if ch = '"' then (balancedFrom stack true false rest).map (· + 1)
    else if ch = '{' then (balancedFrom ('}' :: stack) false false rest).map (· + 1)
    else if ch = '[' then (balancedFrom (']' :: stack) false false rest).map (· + 1)
    else if stack.head? = some ch then
      if stack.tail = [] then some 1 else (balancedFrom stack.tail false false rest).map (· + 1)
    else if ch = '}' ∨ ch = ']' then none
    else (balancedFrom stack false false rest).map (· + 1)

def isOpener (c : Char) : Bool := c == '{' || c == '['

/-- `_first_balanced_span`. -/
def firstBalancedSpan (text : Text) : Option (Nat × Nat) :=
  match text.findIdx? isOpener with
  | none => none
  | some start => (balancedFrom [] false false (text.drop start)).map fun n => (start, start + n)

/-- `JsonOutputError`, by what it says. -/
inductive JsonOutputError where
  | empty
  | noObject
  | invalid
deriving DecidableEq

section Reading

variable (floats : Json.FloatReader) (isWord : Char → Bool)

def extractJsonValue (text : Text) : Except JsonOutputError Json :=
  let cleaned := stripWrappers isWord text
  if cleaned = [] then .error .empty
  else
    match Json.loads floats cleaned with
    | some v => .ok v
    | none =>
      match firstBalancedSpan cleaned with
      | none => .error .noObject
      | some span =>
        match Json.loads floats ((cleaned.take span.2).drop span.1) with
        | some v => .ok v
        | none => .error .invalid

/-- Why the content is the text as it came. -/
inductive ContentError where
  | output (e : JsonOutputError)
  | schema (reason : Text)

/-- `coerce_json_content`; a schema is what `schema_error` says of a value. -/
def coerceJsonContent (text : Text) (schema : Option (Json → Option Text)) :
    Text × Option ContentError :=
  match extractJsonValue floats isWord text with
  | .error e => (text, some (.output e))
  | .ok v =>
    match schema.bind fun schemaError => schemaError v with
    | some reason => (text, some (.schema reason))
    | none => (v.dumps, none)

end Reading

/-! ## Replies -/

/-- How a reply may hold a rendering. -/
inductive Wrap where
  | alone
  | fenced (before lang w w' after : Text)
  | afterThink (before thought w : Text)
  | amidProse (before after : Text)

namespace Wrap

def reply : Wrap → Text → Text
  | alone, r => r
  | fenced before lang w w' after, r =>
    before ++ (fenceMark ++ (lang ++ (w ++ (r ++ (w' ++ (fenceMark ++ after))))))
  | afterThink before thought w, r =>
    before ++ ("<think>".toList ++ (thought ++ ("</think>".toList ++ (w ++ r))))
  | amidProse before after, r => before ++ (r ++ after)

def Spaces (text : Text) : Prop := ∀ c ∈ text, isSpace c = true

def isBracket (c : Char) : Bool := c == '{' || c == '[' || c == '}' || c == ']'

/-- No bracket and no quote, no fence and no tag. -/
structure Prose (isWord : Char → Bool) (text : Text) : Prop where
  marks : ∀ c ∈ text, isBracket c = false ∧ c ≠ '"'
  fence : find fenceMark text = none
  opener : search (openTag isWord) text = none
  closer : search closeTag text = none

def Allowed (isWord : Char → Bool) : Wrap → Prop
  | alone => True
  | fenced before lang w w' after => Spaces before ∧ (∀ c ∈ lang, isFenceWord c = true) ∧
      Spaces w ∧ Spaces w' ∧ Spaces after
  | afterThink before thought w => Spaces before ∧ search closeTag thought = none ∧ Spaces w
  | amidProse before after => Prose isWord before ∧ Prose isWord after

/-- No think tag is in the text. -/
structure Untagged (isWord : Char → Bool) (text : Text) : Prop where
  opener : search (openTag isWord) text = none
  closer : search closeTag text = none

/-- No regular expression matches but where the wrapper is. -/
def Agrees (isWord : Char → Bool) : Wrap → Text → Prop
  | alone, r => Untagged isWord r ∧ JsonOutput.fence r = none
  | fenced before lang w w' after, r =>
    Untagged isWord ((fenced before lang w w' after).reply r) ∧ find fenceMark r = none
  | afterThink _ _ w, r => Untagged isWord (w ++ r) ∧ JsonOutput.fence (w ++ r) = none
  | amidProse before after, r => Untagged isWord ((amidProse before after).reply r) ∧
      JsonOutput.fence ((amidProse before after).reply r) = none

end Wrap

/-- A JSON object or array. -/
def IsContainer : Json → Prop
  | .array _ => True
  | .object _ => True
  | _ => False

/-- The value comes out of the reply, and the content is read as it. -/
def Delivered (floats : Json.FloatReader) (isWord : Char → Bool) (reply : Text) (v : Json) : Prop :=
  extractJsonValue floats isWord reply = .ok v ∧
    ∃ s, coerceJsonContent floats isWord reply none = (s, none) ∧ Json.loads floats s = some v

/-! ## Stripping -/

theorem lstrip_spaces {s t : Text} (hs : Wrap.Spaces s) : lstrip (s ++ t) = lstrip t :=
  List.dropWhile_append_of_pos hs

theorem rstrip_spaces {s t : Text} (hs : Wrap.Spaces s) : rstrip (t ++ s) = rstrip t := by
  unfold rstrip List.rdropWhile
  rw [List.reverse_append, List.dropWhile_append_of_pos fun c hc => hs c (List.mem_reverse.mp hc)]

theorem rstrip_append {t : Text} {d : Char} (hd : isSpace d = false) (s : Text) :
    rstrip (t ++ d :: s) = t ++ d :: rstrip s := by
  unfold rstrip List.rdropWhile
  have hstop : (d :: t.reverse).dropWhile isSpace = d :: t.reverse := by
    rw [List.dropWhile_cons_of_neg (by rw [hd]; exact Bool.false_ne_true)]
  rw [show (t ++ d :: s).reverse = s.reverse ++ d :: t.reverse by simp, List.dropWhile_append]
  split
  · rename_i hempty
    rw [List.isEmpty_iff] at hempty
    rw [hstop, hempty]
    simp
  · simp

theorem lstrip_append_cons {c : Char} (hc : isSpace c = false) (s t : Text) :
    lstrip (s ++ c :: t) = lstrip s ++ c :: t := by
  unfold lstrip
  rw [List.dropWhile_append]
  split
  · rename_i hempty
    rw [List.isEmpty_iff] at hempty
    rw [hempty, List.dropWhile_cons_of_neg (by rw [hc]; exact Bool.false_ne_true)]
    rfl
  · rfl

theorem lstrip_nil_of_spaces {s : Text} (hs : Wrap.Spaces s) : lstrip s = [] :=
  List.dropWhile_eq_nil_iff.mpr hs

theorem rstrip_nil_of_spaces {s : Text} (hs : Wrap.Spaces s) : rstrip s = [] := by
  have h := rstrip_spaces (t := []) hs
  rw [List.nil_append] at h
  rw [h]
  rfl

/-- A text between brackets. -/
def Closed (text : Text) : Prop :=
  ∃ c mid d, text = c :: (mid ++ [d]) ∧ isSpace c = false ∧ isSpace d = false

theorem strip_closed {a u b : Text} (hu : Closed u) :
    strip (a ++ (u ++ b)) = lstrip a ++ (u ++ rstrip b) := by
  obtain ⟨c, mid, d, rfl, hc, hd⟩ := hu
  unfold strip
  rw [List.cons_append, lstrip_append_cons hc]
  have hsplit : ∀ s : Text,
      lstrip a ++ c :: (mid ++ [d] ++ s) = (lstrip a ++ c :: mid) ++ d :: s := by
    simp
  rw [hsplit, rstrip_append hd]
  simp

theorem isSpace_of_isWs {c : Char} (h : Json.isWs c = true) : isSpace c = true := by
  unfold Json.isWs at h
  simp only [Bool.or_eq_true, beq_iff_eq] at h
  rcases h with ((rfl | rfl) | rfl) | rfl <;> decide

theorem spaces_of_blank {w : Text} (h : Json.Blank w) : Wrap.Spaces w :=
  fun c hc => isSpace_of_isWs (h c hc)

theorem Wrap.Spaces.append {a b : Text} (ha : Wrap.Spaces a) (hb : Wrap.Spaces b) :
    Wrap.Spaces (a ++ b) := by
  intro c hc
  rcases List.mem_append.mp hc with h | h
  · exact ha c h
  · exact hb c h

/-! ## Searching -/

theorem search_mono {m m' : Text → Option Text} (h : ∀ t, m t = none → m' t = none) {text : Text}
    (hs : search m text = none) : search m' text = none := by
  induction text with
  | nil =>
    simp only [search, Option.map_eq_none_iff] at hs ⊢
    exact h _ hs
  | cons c rest ih =>
    rw [search] at hs ⊢
    split at hs
    · cases hs
    · rename_i hm
      rw [Option.map_eq_none_iff] at hs
      rw [h _ hm]
      dsimp only
      rw [ih hs]
      rfl

theorem substitute_none {m : Text → Option Text} {text : Text} (h : search m text = none) :
    ∀ fuel, substitute m fuel text = text
  | 0 => rfl
  | fuel + 1 => by rw [substitute, h]

/-- A tag begins with its bracket. -/
def Begins (m : Text → Option Text) : Prop :=
  m [] = none ∧ ∀ c rest, c ≠ '<' → m (c :: rest) = none

theorem search_skip {m : Text → Option Text} (hm : Begins m) {s : Text} (hs : '<' ∉ s) (t : Text) :
    search m (s ++ t) = (search m t).map fun r => (s ++ r.1, r.2) := by
  induction s with
  | nil =>
    rw [List.nil_append]
    simp
  | cons c s ih =>
    have hc : c ≠ '<' := fun h => hs (h ▸ List.mem_cons_self)
    rw [List.cons_append, search, hm.2 c _ hc, ih fun h => hs (List.mem_cons_of_mem c h)]
    dsimp only
    rw [Option.map_map]
    rfl

theorem search_at {m : Text → Option Text} (hm : Begins m) {text after : Text}
    (h : m text = some after) : search m text = some ([], after) := by
  cases text with
  | nil =>
    rw [hm.1] at h
    cases h
  | cons c rest => rw [search, h]

theorem matchClasses_first {classes : List Text} {text rest : Text}
    (h : matchClasses (['<'] :: classes) text = some rest) : text.head? = some '<' := by
  cases text with
  | nil => cases h
  | cons c text =>
    rw [matchClasses] at h
    split at h
    · rename_i hc
      rw [List.mem_singleton.mp hc]
      rfl
    · cases h

theorem begins_of_first {m : Text → Option Text} (classes : List Text)
    (h : ∀ t after, m t = some after → ∃ rest, matchClasses (['<'] :: classes) t = some rest) :
    Begins m := by
  have hfirst : ∀ t after, m t = some after → t.head? = some '<' := by
    intro t after hm
    obtain ⟨rest, hclasses⟩ := h t after hm
    exact matchClasses_first hclasses
  constructor
  · cases hm : m [] with
    | none => rfl
    | some after => cases hfirst _ _ hm
  · intro c rest hc
    cases hm : m (c :: rest) with
    | none => rfl
    | some after =>
      have := hfirst _ _ hm
      rw [List.head?_cons, Option.some.injEq] at this
      exact absurd this hc

theorem openTag_begins (isWord : Char → Bool) : Begins (openTag isWord) := by
  refine begins_of_first thinkName fun t after h => ?_
  unfold openTag at h
  split at h
  · cases h
  · rename_i rest hclasses
    exact ⟨rest, hclasses⟩

theorem closeTag_begins : Begins closeTag := by
  refine begins_of_first (['/'] :: thinkName) fun t after h => ?_
  unfold closeTag at h
  split at h
  · cases h
  · rename_i rest hclasses
    exact ⟨rest, hclasses⟩

theorem thinkBlock_begins (isWord : Char → Bool) : Begins (thinkBlock isWord) := by
  constructor
  · rw [thinkBlock, (openTag_begins isWord).1]
    rfl
  · intro c rest hc
    rw [thinkBlock, (openTag_begins isWord).2 c rest hc]
    rfl

/-! ## What is left of a reply -/

section Wrappers

variable {isWord : Char → Bool} {text : Text}

theorem thinkBlock_none (h : search (openTag isWord) text = none) :
    search (thinkBlock isWord) text = none :=
  search_mono (fun t ht => by rw [thinkBlock, ht]; rfl) h

theorem dropUnopened_untagged (h : search closeTag text = none) : dropUnopened text = text := by
  unfold dropUnopened
  rw [h]
  split <;> rfl

/-- Without a tag only a fence is cut off. -/
theorem stripWrappers_untagged (h : Wrap.Untagged isWord text) :
    stripWrappers isWord text = match fence text with
      | some group => strip group
      | none => strip text := by
  have hblock : sub (thinkBlock isWord) text = text := substitute_none (thinkBlock_none h.opener) _
  have hopen : sub (openTag isWord) text = text := substitute_none h.opener _
  unfold stripWrappers
  rw [hblock, dropUnopened_untagged h.closer, hopen]

theorem stripWrappers_plain (h : Wrap.Untagged isWord text) (hfence : fence text = none) :
    stripWrappers isWord text = strip text := by
  rw [stripWrappers_untagged h, hfence]

theorem fence_skip {s t : Text} (hs : '`' ∉ s) : fence (s ++ t) = fence t := by
  have hfind : find fenceMark (s ++ t) = (find fenceMark t).map (· + s.length) := by
    refine find_skip fun i hi hpre => hs ?_
    have hdrop : (s ++ t).drop i = s[i] :: (s ++ t).drop (i + 1) := by
      rw [List.drop_eq_getElem_cons (by rw [List.length_append]; omega),
        List.getElem_append_left hi]
    rw [hdrop] at hpre
    have hhead : '`' = s[i] := (List.cons_prefix_cons.mp hpre).1
    rw [hhead]
    exact List.getElem_mem hi
  unfold fence
  rw [hfind]
  cases find fenceMark t with
  | none => rfl
  | some i =>
    have hdrop : (s ++ t).drop (i + s.length + fenceMark.length) =
        t.drop (i + fenceMark.length) := by
      rw [show i + s.length + fenceMark.length = s.length + (i + fenceMark.length) by omega,
        ← List.drop_drop, List.drop_left]
    simp only [Option.map_some, hdrop]

theorem not_mem_spaces {s : Text} {c : Char} (hs : Wrap.Spaces s) (hc : isSpace c = false) :
    c ∉ s := by
  intro hmem
  rw [hs c hmem] at hc
  cases hc

theorem untagged_skip {s t : Text} (hs : '<' ∉ s) (h : Wrap.Untagged isWord t) :
    Wrap.Untagged isWord (s ++ t) where
  opener := by rw [search_skip (openTag_begins isWord) hs, h.opener]; rfl
  closer := by rw [search_skip closeTag_begins hs, h.closer]; rfl

end Wrappers

/-! ## A closed think block -/

theorem matchClasses_cut {classes : List Text} (hclasses : ∀ cls ∈ classes, '<' ∉ cls) (z : Text) :
    ∀ {t rest : Text}, matchClasses classes (t ++ '<' :: z) = some rest →
      ∃ t', rest = t' ++ '<' :: z ∧ matchClasses classes t = some t' := by
  induction classes with
  | nil =>
    intro t rest h
    rw [matchClasses, Option.some.injEq] at h
    exact ⟨t, h.symm, by cases t <;> rfl⟩
  | cons cls classes ih =>
    intro t rest h
    cases t with
    | nil =>
      -- the bracket is in none of the classes
      rw [List.nil_append, matchClasses,
        if_neg (hclasses cls List.mem_cons_self)] at h
      cases h
    | cons c t =>
      rw [List.cons_append, matchClasses] at h
      split at h
      · rename_i hc
        obtain ⟨t', hrest, hmatch⟩ :=
          ih (fun cls' h' => hclasses cls' (List.mem_cons_of_mem cls h')) h
        exact ⟨t', hrest, by rw [matchClasses, if_pos hc, hmatch]⟩
      · cases h

/-- A closer does not reach over the bracket of a next tag. -/
theorem closeTag_cut {c : Char} {t z after : Text}
    (h : closeTag (c :: t ++ '<' :: z) = some after) : closeTag (c :: t) ≠ none := by
  unfold closeTag at h ⊢
  split at h
  · cases h
  · rename_i rest hclasses
    have hfirst := matchClasses_first hclasses
    rw [List.cons_append, List.head?_cons, Option.some.injEq] at hfirst
    subst hfirst
    rw [List.cons_append, matchClasses, if_pos (List.mem_singleton.mpr rfl)] at hclasses
    obtain ⟨t', rfl, hmatch⟩ := matchClasses_cut (by decide) z hclasses
    split at h
    · rename_i hend
      have hend' : (t'.dropWhile isSpace).head? = some '>' := by
        have hlt := lstrip_append_cons (c := '<') (by decide) t' z
        unfold lstrip at hlt
        rw [hlt] at hend
        cases hdrop : t'.dropWhile isSpace with
        | nil =>
          rw [hdrop] at hend
          simp at hend
        | cons d t'' =>
          rw [hdrop] at hend
          exact hend
      rw [matchClasses, if_pos (List.mem_singleton.mpr rfl), hmatch]
      dsimp only
      rw [if_pos hend']
      exact Option.some_ne_none _
    · cases h

theorem closeTag_close (rest : Text) : closeTag ("</think>".toList ++ rest) = some rest := by
  have hclasses : matchClasses (['<'] :: ['/'] :: thinkName) ("</think>".toList ++ rest) =
      some ('>' :: rest) := rfl
  have hspace : ('>' :: rest).dropWhile isSpace = '>' :: rest := rfl
  rw [closeTag, hclasses]
  dsimp only
  rw [hspace]
  rfl

theorem openTag_open {isWord : Char → Bool} (hgt : isWord '>' = false) (rest : Text) :
    openTag isWord ("<think>".toList ++ rest) = some rest := by
  have hclasses : matchClasses (['<'] :: thinkName) ("<think>".toList ++ rest) =
      some ('>' :: rest) := rfl
  have hgt' : ('>' :: rest).dropWhile (· != '>') = '>' :: rest := rfl
  rw [openTag, hclasses]
  dsimp only
  rw [List.head?_cons, Option.any_some, hgt, if_neg Bool.false_ne_true, hgt']

/-- The first closer behind a thought is the one that closes it. -/
theorem search_close {thought : Text} (h : search closeTag thought = none) (rest : Text) :
    search closeTag (thought ++ ("</think>".toList ++ rest)) = some (thought, rest) := by
  induction thought with
  | nil => exact search_at closeTag_begins (closeTag_close rest)
  | cons c thought ih =>
    rw [search] at h
    split at h
    · cases h
    · rename_i hnone
      rw [Option.map_eq_none_iff] at h
      rw [List.cons_append, search]
      cases hclose : closeTag (c :: (thought ++ ("</think>".toList ++ rest))) with
      | some after =>
        -- a closer that begins here would end before the next bracket, in the thought
        exact absurd hnone (closeTag_cut (z := "/think>".toList ++ rest) hclose)
      | none =>
        dsimp only
        rw [ih h]
        rfl

/-- A closed block in front of a text without tags becomes a blank. -/
theorem stripWrappers_block {isWord : Char → Bool} (hgt : isWord '>' = false)
    {before thought text : Text} (hbefore : Wrap.Spaces before)
    (hthought : search closeTag thought = none) (h : Wrap.Untagged isWord text)
    (hfence : fence text = none) :
    stripWrappers isWord
        (before ++ ("<think>".toList ++ (thought ++ ("</think>".toList ++ text)))) =
      strip text := by
  have hblank : Wrap.Spaces (before ++ [' ']) := hbefore.append (by simp [Wrap.Spaces, isSpace])
  have hlt : '<' ∉ before ++ [' '] := not_mem_spaces hblank (by decide)
  have hblock : thinkBlock isWord
      ("<think>".toList ++ (thought ++ ("</think>".toList ++ text))) = some text := by
    rw [thinkBlock, openTag_open hgt, Option.bind_some, search_close hthought]
    rfl
  have hsearch : search (thinkBlock isWord)
      (before ++ ("<think>".toList ++ (thought ++ ("</think>".toList ++ text)))) =
        some (before, text) := by
    rw [search_skip (thinkBlock_begins isWord) (not_mem_spaces hbefore (by decide)),
      search_at (thinkBlock_begins isWord) hblock, Option.map_some, List.append_nil]
  -- the block becomes a blank, and the text behind it has no other
  have hsub : sub (thinkBlock isWord)
      (before ++ ("<think>".toList ++ (thought ++ ("</think>".toList ++ text)))) =
        (before ++ [' ']) ++ text := by
    unfold sub
    cases hlen :
        (before ++ ("<think>".toList ++ (thought ++ ("</think>".toList ++ text)))).length with
    | zero => simp at hlen
    | succ fuel =>
      rw [substitute, hsearch]
      dsimp only
      rw [substitute_none (thinkBlock_none h.opener)]
      simp
  have huntagged := untagged_skip hlt h
  have hticks : '`' ∉ before ++ [' '] := not_mem_spaces hblank (by decide)
  unfold stripWrappers
  rw [hsub, dropUnopened_untagged huntagged.closer, sub, substitute_none huntagged.opener]
  dsimp only
  rw [fence_skip hticks, hfence]
  dsimp only
  unfold strip
  rw [lstrip_spaces hblank]

/-! ## A fence -/

/-- No fence begins before the text does that follows a text without one. -/
theorem fence_ahead {s x : Text} (hnone : find fenceMark s = none) (hlast : s.getLast? ≠ some '`') :
    ∀ i < s.length, ¬fenceMark <+: (s ++ fenceMark ++ x).drop i := by
  intro i hi hpre
  by_cases hin : i + fenceMark.length ≤ s.length
  · rw [List.append_assoc] at hpre
    exact find_eq_none_iff.mp hnone i (prefix_drop_of_append hpre hin)
  · -- The mark would hold the last character of the text.
    obtain ⟨s', d, rfl⟩ := (List.eq_nil_or_concat' s).resolve_left (by
      rintro rfl
      simp at hi)
    simp only [List.length_append, List.length_singleton] at hi hin
    have hget : fenceMark[s'.length - i]? = some d := by
      obtain ⟨y, hy⟩ := hpre
      have hlen : s'.length - i < fenceMark.length := by omega
      have hleft : (fenceMark ++ y)[s'.length - i]? = fenceMark[s'.length - i]? :=
        List.getElem?_append_left hlen
      rw [← hleft, hy, List.getElem?_drop, show i + (s'.length - i) = s'.length by omega]
      simp
    have hticks : ∀ c ∈ fenceMark, c = '`' := fun c hc =>
      List.eq_of_mem_replicate (show c ∈ List.replicate 3 '`' from hc)
    refine hlast ?_
    rw [hticks d (List.mem_of_getElem? hget)]
    simp

theorem isFenceWord_eq (c : Char) : isFenceWord c =
    (decide ('A'.val ≤ c.val ∧ c.val ≤ 'Z'.val) ||
      (decide ('a'.val ≤ c.val) && decide (c.val ≤ 'z'.val)) ||
      (decide ('0'.val ≤ c.val) && decide (c.val ≤ '9'.val)) || c == '_' || c == '-') := rfl

theorem isSpace_of_isFenceWord {c : Char} (h : isFenceWord c = true) : isSpace c = false := by
  have hval : c.toNat = c.val.toNat := rfl
  have hupper : 'A'.val.toNat = 65 ∧ 'Z'.val.toNat = 90 := ⟨rfl, rfl⟩
  have hlower : 'a'.val.toNat = 97 ∧ 'z'.val.toNat = 122 := ⟨rfl, rfl⟩
  have hdigit : '0'.val.toNat = 48 ∧ '9'.val.toNat = 57 := ⟨rfl, rfl⟩
  rw [isFenceWord_eq] at h
  simp only [Bool.or_eq_true, Bool.and_eq_true, decide_eq_true_eq, beq_iff_eq,
    UInt32.le_iff_toNat_le] at h
  unfold isSpace
  simp only [Bool.or_eq_false_iff, Bool.and_eq_false_iff, decide_eq_false_iff_not,
    beq_eq_false_iff_ne]
  rcases h with (((⟨h₁, h₂⟩ | ⟨h₁, h₂⟩) | ⟨h₁, h₂⟩) | rfl) | rfl
  · omega
  · omega
  · omega
  · decide
  · decide

theorem fenceBody_of {lang w : Text} {c : Char} (hlang : ∀ d ∈ lang, isFenceWord d = true)
    (hw : Wrap.Spaces w) (hspace : isSpace c = false) (hword : isFenceWord c = false)
    (rest : Text) : fenceBody (lang ++ (w ++ c :: rest)) = c :: rest := by
  have hskip : (w ++ c :: rest).dropWhile isFenceWord = w ++ c :: rest := by
    cases w with
    | nil =>
      rw [List.nil_append,
        List.dropWhile_cons_of_neg (by rw [hword]; exact Bool.false_ne_true)]
    | cons d w =>
      -- white space ends the language
      have hd : isFenceWord d = false := by
        have hdspace := hw d List.mem_cons_self
        by_contra hd
        rw [Bool.not_eq_false] at hd
        exact absurd hdspace (by rw [isSpace_of_isFenceWord hd]; exact Bool.false_ne_true)
      rw [List.cons_append, List.dropWhile_cons_of_neg (by rw [hd]; exact Bool.false_ne_true)]
  unfold fenceBody
  rw [List.dropWhile_append_of_pos hlang, hskip, List.dropWhile_append_of_pos hw,
    List.dropWhile_cons_of_neg (by rw [hspace]; exact Bool.false_ne_true)]

theorem getLast_ne_tick {u w : Text} (hlast : ∀ c ∈ u.getLast?, c ≠ '`') (hw : Wrap.Spaces w) :
    (u ++ w).getLast? ≠ some '`' := by
  rw [List.getLast?_append]
  cases hwlast : w.getLast? with
  | none =>
    rw [Option.none_or]
    exact fun h => hlast _ h rfl
  | some d =>
    rw [Option.some_or]
    rintro ⟨⟩
    exact not_mem_spaces hw (by decide) (List.mem_of_getLast? hwlast)

theorem find_fenceMark_spaces {u w : Text} (hnone : find fenceMark u = none)
    (hw : Wrap.Spaces w) : find fenceMark (u ++ w) = none := by
  cases hfind : find fenceMark (u ++ w) with
  | none => rfl
  | some i =>
    -- the last tick of the mark would be white space
    have hlt : u.length < i + 3 := find_append_of_none hnone hfind
    obtain ⟨y, hy⟩ := prefix_of_find hfind
    have hget : (u ++ w)[i + 2]? = some '`' := by
      rw [← List.getElem?_drop, ← hy]
      rfl
    rw [List.getElem?_append_right (by omega)] at hget
    exact absurd (List.mem_of_getElem? hget) (not_mem_spaces hw (by decide))

/-- What a fence holds. -/
theorem fence_of {before lang w w' after u : Text} (hbefore : '`' ∉ before)
    (hlang : ∀ d ∈ lang, isFenceWord d = true) (hw : Wrap.Spaces w) (hw' : Wrap.Spaces w')
    (hu : Closed u) (hword : ∀ c ∈ u.head?, isFenceWord c = false)
    (hlast : ∀ c ∈ u.getLast?, c ≠ '`') (hnone : find fenceMark u = none) :
    fence (before ++ (fenceMark ++ (lang ++ (w ++ (u ++ (w' ++ (fenceMark ++ after))))))) =
      some (rstrip (u ++ w')) := by
  have hend : (u ++ w').getLast? ≠ some '`' := getLast_ne_tick hlast hw'
  have hnone' : find fenceMark (u ++ w') = none := find_fenceMark_spaces hnone hw'
  rw [fence_skip hbefore]
  have hfirst : find fenceMark (fenceMark ++ (lang ++ (w ++ (u ++ (w' ++ (fenceMark ++ after)))))) =
      some 0 := find_eq_some_iff.mpr ⟨Nat.zero_le _, List.prefix_append _ _, by simp⟩
  obtain ⟨c, mid, d, rfl, hc, hd⟩ := hu
  have hbody := fenceBody_of hlang hw hc (hword c rfl)
    ((mid ++ [d]) ++ (w' ++ (fenceMark ++ after)))
  have hfind : find fenceMark ((c :: (mid ++ [d]) ++ w') ++ (fenceMark ++ after)) =
      some (c :: (mid ++ [d]) ++ w').length := by
    have hskip := @find_skip _ _ fenceMark (c :: (mid ++ [d]) ++ w') (fenceMark ++ after) (by
        rw [← List.append_assoc]
        exact fence_ahead hnone' hend)
    rw [hskip, find_eq_some_iff.mpr ⟨Nat.zero_le _, List.prefix_append _ _, by simp⟩]
    simp
  unfold fence
  rw [hfirst]
  dsimp only
  rw [Nat.zero_add, List.drop_left]
  have happend : c :: (mid ++ [d]) ++ (w' ++ (fenceMark ++ after)) =
      (c :: (mid ++ [d]) ++ w') ++ (fenceMark ++ after) := by simp
  rw [show lang ++ (w ++ (c :: (mid ++ [d]) ++ (w' ++ (fenceMark ++ after)))) =
    lang ++ (w ++ c :: (mid ++ [d] ++ (w' ++ (fenceMark ++ after)))) by simp, hbody]
  rw [show c :: (mid ++ [d] ++ (w' ++ (fenceMark ++ after))) =
    (c :: (mid ++ [d]) ++ w') ++ (fenceMark ++ after) by simp, hfind]
  dsimp only [Option.map_some]
  rw [List.take_left]

/-! ## The balanced span -/

/-- A text that the scan goes over while it waits for a closer. -/
def Skips (text : Text) : Prop := ∀ stack rest, stack ≠ [] → (∀ c ∈ stack, c = '}' ∨ c = ']') →
  balancedFrom stack false false (text ++ rest) =
    (balancedFrom stack false false rest).map (· + text.length)

def isMark (c : Char) : Bool := Wrap.isBracket c || c == '"'

theorem isMark_false {c : Char} (h : isMark c = false) :
    c ≠ '"' ∧ c ≠ '{' ∧ c ≠ '[' ∧ c ≠ '}' ∧ c ≠ ']' := by
  unfold isMark Wrap.isBracket at h
  simp only [Bool.or_eq_false_iff, beq_eq_false_iff_ne] at h
  exact ⟨h.2, h.1.1.1.1, h.1.1.1.2, h.1.1.2, h.1.2⟩

theorem skips_nil : Skips [] := by
  intro stack rest _ _
  simp

theorem Skips.append {a b : Text} (ha : Skips a) (hb : Skips b) : Skips (a ++ b) := by
  intro stack rest hne hstack
  rw [List.append_assoc, ha stack _ hne hstack, hb stack rest hne hstack, Option.map_map]
  congr 1
  funext n
  simp only [Function.comp_apply, List.length_append]
  omega

theorem skips_of_unmarked {text : Text} (h : ∀ c ∈ text, isMark c = false) : Skips text := by
  induction text with
  | nil => exact skips_nil
  | cons c text ih =>
    intro stack rest hne hstack
    obtain ⟨hquote, hopen, hopen', hclose, hclose'⟩ := isMark_false (h c List.mem_cons_self)
    have hhead : stack.head? ≠ some c := by
      intro hhead
      rcases hstack c (List.mem_of_mem_head? hhead) with rfl | rfl
      · exact hclose rfl
      · exact hclose' rfl
    rw [List.cons_append, balancedFrom]
    simp only [Bool.false_eq_true, if_false, if_neg hquote, if_neg hopen, if_neg hopen',
      if_neg hhead, hclose, hclose', or_self]
    rw [ih (fun d hd => h d (List.mem_cons_of_mem c hd)) stack rest hne hstack, Option.map_map]
    rfl

/-- A text that the scan goes over inside a string. -/
def SkipsString (text : Text) : Prop := ∀ stack rest,
  balancedFrom stack true false (text ++ rest) =
    (balancedFrom stack true false rest).map (· + text.length)

theorem SkipsString.append {a b : Text} (ha : SkipsString a) (hb : SkipsString b) :
    SkipsString (a ++ b) := by
  intro stack rest
  rw [List.append_assoc, ha stack _, hb stack rest, Option.map_map]
  congr 1
  funext n
  simp only [Function.comp_apply, List.length_append]
  omega

theorem skipsString_plain {c : Char} (hquote : c ≠ '"') (hslash : c ≠ '\\') : SkipsString [c] := by
  intro stack rest
  rw [List.singleton_append, balancedFrom]
  simp only [Bool.false_eq_true, if_false, if_true, if_neg hslash, if_neg hquote,
    List.length_singleton]

theorem skipsString_escape (e : Char) : SkipsString ['\\', e] := by
  intro stack rest
  rw [List.cons_append, List.singleton_append, balancedFrom]
  simp only [Bool.false_eq_true, if_false, if_true]
  rw [balancedFrom]
  simp only [if_true, Option.map_map]
  rfl

theorem hexValue_plain {c : Char} {n : Nat} (h : Json.hexValue c = some n) :
    c ≠ '"' ∧ c ≠ '\\' := by
  constructor <;> rintro rfl <;> cases h

theorem skipsString_hex {hex : Text} {n : Nat} (h : Json.readHex4 hex = some (n, [])) :
    SkipsString hex := by
  match hex, h with
  | a :: b :: c :: d :: rest, h =>
    simp only [Json.readHex4] at h
    split at h
    · rename_i ha hb hc hd
      rw [Option.some.injEq, Prod.mk.injEq] at h
      obtain ⟨-, rfl⟩ := h
      have hab := (skipsString_plain (hexValue_plain ha).1 (hexValue_plain ha).2).append
        (skipsString_plain (hexValue_plain hb).1 (hexValue_plain hb).2)
      have hcd := (skipsString_plain (hexValue_plain hc).1 (hexValue_plain hc).2).append
        (skipsString_plain (hexValue_plain hd).1 (hexValue_plain hd).2)
      exact hab.append hcd
    · cases h

theorem skipsString_char {c : Char} {text : Text} (h : Json.CharText c text) :
    SkipsString text := by
  cases h with
  | plain _ hquote hslash => exact skipsString_plain hquote hslash
  | short => exact skipsString_escape _
  | unicode h => exact (skipsString_escape 'u').append (skipsString_hex h)
  | pair h h' =>
    exact (skipsString_escape 'u').append ((skipsString_hex h).append
      ((skipsString_escape 'u').append (skipsString_hex h')))

theorem skipsString_body {s body : Text} (h : Json.BodyText s body) : SkipsString body := by
  induction h with
  | nil =>
    intro stack rest
    simp
  | cons hchar _ ih => exact (skipsString_char hchar).append ih

theorem skips_string {body : Text} (h : SkipsString body) : Skips ('"' :: (body ++ ['"'])) := by
  intro stack rest _ _
  rw [List.cons_append, balancedFrom]
  simp only [Bool.false_eq_true, if_false, if_true]
  rw [List.append_assoc, h stack, List.singleton_append, balancedFrom]
  simp only [Bool.false_eq_true, if_false, if_true, Option.map_map]
  rw [if_neg (by decide)]
  simp only [Option.map_map]
  congr 1
  funext n
  simp only [Function.comp_apply, List.length_cons, List.length_append, List.length_nil]
  omega

/-- The brackets, with the closer that the scan waits for. -/
def brackets : List (Char × Char) := [('{', '}'), ('[', ']')]

/-- What an opening bracket stands in front of, up to its closer. -/
theorem balanced_open {o c : Char} (hbracket : (o, c) ∈ brackets) {inner : Text} (h : Skips inner)
    (stack rest : Text) (hstack : ∀ d ∈ stack, d = '}' ∨ d = ']') :
    balancedFrom stack false false (o :: (inner ++ c :: rest)) =
      if stack = [] then some (inner.length + 2)
      else (balancedFrom stack false false rest).map (· + (inner.length + 2)) := by
  have hclose : c = '}' ∨ c = ']' := by
    simp only [brackets, List.mem_cons, Prod.mk.injEq, List.not_mem_nil, or_false] at hbracket
    rcases hbracket with ⟨-, rfl⟩ | ⟨-, rfl⟩ <;> decide
  have hpush : balancedFrom stack false false (o :: (inner ++ c :: rest)) =
      (balancedFrom (c :: stack) false false (inner ++ c :: rest)).map (· + 1) := by
    simp only [brackets, List.mem_cons, Prod.mk.injEq, List.not_mem_nil, or_false] at hbracket
    rcases hbracket with ⟨rfl, rfl⟩ | ⟨rfl, rfl⟩ <;> rw [balancedFrom] <;> rfl
  have hpop : balancedFrom (c :: stack) false false (c :: rest) =
      if stack = [] then some 1 else (balancedFrom stack false false rest).map (· + 1) := by
    rcases hclose with rfl | rfl <;> rw [balancedFrom] <;> rfl
  have hwaits : ∀ d ∈ c :: stack, d = '}' ∨ d = ']' := by
    intro d hd
    rcases List.mem_cons.mp hd with rfl | hd
    · exact hclose
    · exact hstack d hd
  -- the bracket waits for `c`, the scan goes over what is inside, and `c` ends the wait
  rw [hpush, h (c :: stack) _ (List.cons_ne_nil _ _) hwaits, hpop]
  split
  · simp only [Option.map_some]
    congr 1
    omega
  · simp only [Option.map_map]
    congr 1
    funext n
    simp only [Function.comp_apply]
    omega

theorem skips_enclosed {o c : Char} (hbracket : (o, c) ∈ brackets) {inner : Text}
    (h : Skips inner) : Skips (o :: (inner ++ [c])) := by
  intro stack rest hne hstack
  rw [List.cons_append, List.append_assoc, List.singleton_append,
    balanced_open hbracket h stack rest hstack, if_neg hne]
  simp

theorem unmarked_of_blank {w : Text} (h : Json.Blank w) : ∀ c ∈ w, isMark c = false := by
  intro c hc
  have hws := h c hc
  unfold Json.isWs at hws
  simp only [Bool.or_eq_true, beq_iff_eq] at hws
  rcases hws with ((rfl | rfl) | rfl) | rfl <;> decide

theorem skips_blank {w : Text} (h : Json.Blank w) : Skips w :=
  skips_of_unmarked (unmarked_of_blank h)

theorem unmarked_of_literal {text : Text} {v : Json} (h : (text, v) ∈ Json.literals) :
    ∀ c ∈ text, isMark c = false := by
  have hfree : text.all (fun c => !isMark c) = true := by
    simp only [Json.literals, List.mem_cons, Prod.mk.injEq, List.not_mem_nil, or_false] at h
    rcases h with ⟨rfl, -⟩ | ⟨rfl, -⟩ | ⟨rfl, -⟩ | ⟨rfl, -⟩ | ⟨rfl, -⟩ | ⟨rfl, -⟩ <;> decide
  exact fun c hc => Bool.not_eq_true' _ ▸ List.all_eq_true.mp hfree c hc

theorem unmarked_of_digit {c : Char} (h : c.isDigit = true) : isMark c = false := by
  unfold isMark Wrap.isBracket
  simp only [Bool.or_eq_false_iff, beq_eq_false_iff_ne]
  refine ⟨⟨⟨⟨?_, ?_⟩, ?_⟩, ?_⟩, ?_⟩ <;> rintro rfl <;> exact absurd h (by decide)

theorem unmarked_of_number (p : Json.NumberText) : ∀ c ∈ p.text, isMark c = false := by
  intro c hc
  unfold Json.NumberText.text at hc
  simp only [List.mem_append] at hc
  rcases hc with hc | hc | hc | hc
  · rcases p.signed with h | h
    · rw [h] at hc
      cases hc
    · rw [h, List.mem_singleton] at hc
      rw [hc]
      decide
  · rcases p.wholeDigits with h | h
    · rw [h, List.mem_singleton] at hc
      rw [hc]
      decide
    · exact unmarked_of_digit (h.1.2 c hc)
  · rcases p.fracDigits with h | ⟨ds, hds, h⟩
    · rw [h] at hc
      cases hc
    · rw [h] at hc
      rcases List.mem_cons.mp hc with rfl | hc
      · decide
      · exact unmarked_of_digit (hds.2 c hc)
  · rcases p.expDigits with h | ⟨e, s, ds, he, hs, hds, h⟩
    · rw [h] at hc
      cases hc
    · rw [h] at hc
      rcases List.mem_cons.mp hc with rfl | hc
      · rcases he with rfl | rfl <;> decide
      · rcases List.mem_append.mp hc with hc | hc
        · rcases hs with rfl | rfl | rfl
          · cases hc
          · rw [List.mem_singleton.mp hc]
            decide
          · rw [List.mem_singleton.mp hc]
            decide
        · exact unmarked_of_digit (hds.2 c hc)

/-- What the scan makes of the parts of a value: over a value it goes, and what an open bracket has
in front of it ends with the closer. -/
def Balanced : Json.Part → Text → Prop
  | .value _, text => Skips text
  | .items _, text => ∃ inner, text = inner ++ [']'] ∧ Skips inner
  | .members _, text => ∃ inner, text = inner ++ ['}'] ∧ Skips inner

theorem Skips.cons {c : Char} {text : Text} (hc : isMark c = false) (h : Skips text) :
    Skips (c :: text) :=
  @Skips.append [c] text (skips_of_unmarked fun d hd => by rwa [List.mem_singleton.mp hd]) h

/-- The key of a member, and its value. -/
theorem skips_member {k body w w' text w₃ : Text} (hk : Json.BodyText k body) (hw : Json.Blank w)
    (hw' : Json.Blank w') (h : Skips text) (hw₃ : Json.Blank w₃) :
    Skips ('"' :: (body ++ '"' :: (w ++ ':' :: (w' ++ (text ++ w₃))))) := by
  have hvalue := (skips_blank hw').append (h.append (skips_blank hw₃))
  have hcolon := (skips_blank hw).append (hvalue.cons (show isMark ':' = false by decide))
  have hkey := (skips_string (skipsString_body hk)).append hcolon
  simpa using hkey

theorem balanced_of_spells {floats : Json.FloatReader} {p : Json.Part} {text : Text}
    (h : Json.Spells floats p text) : Balanced p text := by
  induction h with
  | literal h => exact skips_of_unmarked (unmarked_of_literal h)
  | number p => exact skips_of_unmarked (unmarked_of_number p)
  | string h => exact skips_string (skipsString_body h)
  | emptyArray hw => exact skips_enclosed (by decide) (skips_blank hw)
  | array hw _ ih =>
    obtain ⟨inner, rfl, hinner⟩ := ih
    rw [← List.append_assoc]
    exact skips_enclosed (by decide) ((skips_blank hw).append hinner)
  | emptyObject hw => exact skips_enclosed (by decide) (skips_blank hw)
  | object hw _ ih =>
    obtain ⟨inner, rfl, hinner⟩ := ih
    rw [← List.append_assoc]
    exact skips_enclosed (by decide) ((skips_blank hw).append hinner)
  | lastItem _ hw ih => exact ⟨_, (List.append_assoc _ _ _).symm, ih.append (skips_blank hw)⟩
  | @item v vs text w w' rest _ hw hw' _ ih ihs =>
    obtain ⟨inner, rfl, hinner⟩ := ihs
    refine ⟨text ++ (w ++ ',' :: (w' ++ inner)), by simp, ?_⟩
    have hcomma := ((skips_blank hw').append hinner).cons (show isMark ',' = false by decide)
    exact Skips.append ih ((skips_blank hw).append hcomma)
  | @lastMember k body v text w w' w₃ hk hw hw' _ hw₃ ih =>
    exact ⟨_, by simp, skips_member hk hw hw' ih hw₃⟩
  | @member k body v ms text w w' w₃ w₄ rest hk hw hw' _ hw₃ hw₄ _ ih ihs =>
    obtain ⟨inner, rfl, hinner⟩ := ihs
    have hcomma := ((skips_blank hw₄).append hinner).cons (show isMark ',' = false by decide)
    refine ⟨_, ?_, (skips_member hk hw hw' ih hw₃).append hcomma⟩
    simp

/-- An array or an object stands between its brackets. -/
theorem enclosed_of_spells {floats : Json.FloatReader} {v : Json} {text : Text}
    (h : Json.Spells floats (.value v) text) (hv : IsContainer v) :
    ∃ o c inner, (o, c) ∈ brackets ∧ text = o :: (inner ++ [c]) ∧ Skips inner := by
  generalize hp : Json.Part.value v = p at h
  cases h with
  | literal h =>
    cases hp
    -- no word is an array or an object
    simp only [Json.literals, List.mem_cons, Prod.mk.injEq, List.not_mem_nil, or_false] at h
    rcases h with ⟨-, rfl⟩ | ⟨-, rfl⟩ | ⟨-, rfl⟩ | ⟨-, rfl⟩ | ⟨-, rfl⟩ | ⟨-, rfl⟩ <;> exact hv.elim
  | number p =>
    cases hp
    unfold Json.NumberText.value at hv
    split at hv <;> exact hv.elim
  | string h =>
    cases hp
    exact hv.elim
  | emptyArray hw => exact ⟨'[', ']', _, by decide, rfl, skips_blank hw⟩
  | array hw h =>
    obtain ⟨inner, rfl, hinner⟩ := balanced_of_spells h
    exact ⟨'[', ']', _, by decide, by rw [← List.append_assoc], (skips_blank hw).append hinner⟩
  | emptyObject hw => exact ⟨'{', '}', _, by decide, rfl, skips_blank hw⟩
  | object hw h =>
    obtain ⟨inner, rfl, hinner⟩ := balanced_of_spells h
    exact ⟨'{', '}', _, by decide, by rw [← List.append_assoc], (skips_blank hw).append hinner⟩
  | lastItem => cases hp
  | item => cases hp
  | lastMember => cases hp
  | member => cases hp

/-! ## Reading a reply -/

theorem closed_of_enclosed {o c : Char} {inner : Text} (h : (o, c) ∈ brackets) :
    Closed (o :: (inner ++ [c])) := by
  simp only [brackets, List.mem_cons, Prod.mk.injEq, List.not_mem_nil, or_false] at h
  rcases h with ⟨rfl, rfl⟩ | ⟨rfl, rfl⟩ <;> exact ⟨_, inner, _, rfl, by decide, by decide⟩

theorem rstrip_closed {u s : Text} (hu : Closed u) (hs : Wrap.Spaces s) : rstrip (u ++ s) = u := by
  obtain ⟨c, mid, d, rfl, -, hd⟩ := hu
  have hsplit : c :: (mid ++ [d]) ++ s = (c :: mid) ++ d :: s := by simp
  rw [hsplit, rstrip_append hd, rstrip_nil_of_spaces hs]
  simp

theorem strip_self {u : Text} (hu : Closed u) : strip u = u := by
  have h := strip_closed (a := []) (b := []) hu
  rw [List.append_nil, List.nil_append] at h
  rw [h]
  show [] ++ (u ++ []) = u
  simp

theorem unmarked_lstrip {x : Text} (h : ∀ c ∈ x, isMark c = false) :
    ∀ c ∈ lstrip x, isMark c = false :=
  fun c hc => h c ((List.dropWhile_suffix isSpace).subset hc)

/-- What is left of a reply: the value, behind a text without brackets and quotes. -/
theorem stripWrappers_reply {isWord : Char → Bool} (hgt : isWord '>' = false) (wrap : Wrap)
    (hallowed : wrap.Allowed isWord) {w₁ w₂ inner : Text} {o c : Char} (hw₁ : Json.Blank w₁)
    (hw₂ : Json.Blank w₂) (hbracket : (o, c) ∈ brackets)
    (hagrees : wrap.Agrees isWord (w₁ ++ (o :: (inner ++ [c]) ++ w₂))) :
    ∃ x y, stripWrappers isWord (wrap.reply (w₁ ++ (o :: (inner ++ [c]) ++ w₂))) =
      x ++ (o :: (inner ++ [c]) ++ y) ∧ ∀ c ∈ x, isMark c = false := by
  have hclosed : Closed (o :: (inner ++ [c])) := closed_of_enclosed hbracket
  generalize hu : o :: (inner ++ [c]) = u at hagrees hclosed ⊢
  have hs₁ := spaces_of_blank hw₁
  have hs₂ := spaces_of_blank hw₂
  cases wrap with
  | alone =>
    refine ⟨[], rstrip w₂, ?_, fun _ h => absurd h List.not_mem_nil⟩
    show stripWrappers isWord (w₁ ++ (u ++ w₂)) = _
    rw [stripWrappers_plain hagrees.1 hagrees.2, strip_closed hclosed, lstrip_nil_of_spaces hs₁]
  | fenced before lang w w' after =>
    obtain ⟨hbefore, hlang, hw, hw', hafter⟩ := hallowed
    obtain ⟨huntagged, hnone⟩ := hagrees
    have hshape : (Wrap.fenced before lang w w' after).reply (w₁ ++ (u ++ w₂)) =
        before ++ (fenceMark ++ (lang ++ ((w ++ w₁) ++ (u ++ ((w₂ ++ w') ++
          (fenceMark ++ after)))))) := by
      show before ++ _ = _
      simp only [List.append_assoc]
    -- a bracket is no part of a language, and no tick
    have hends : (∀ d ∈ u.head?, isFenceWord d = false) ∧ ∀ d ∈ u.getLast?, d ≠ '`' := by
      rw [← hu, ← List.cons_append, List.getLast?_append]
      simp only [brackets, List.mem_cons, Prod.mk.injEq, List.not_mem_nil, or_false] at hbracket
      rcases hbracket with ⟨rfl, rfl⟩ | ⟨rfl, rfl⟩ <;> simp [isFenceWord_eq]
    have hfence := @fence_of before lang (w ++ w₁) (w₂ ++ w') after u
      (not_mem_spaces hbefore (by decide)) hlang (hw.append hs₁) (hs₂.append hw') hclosed
      hends.1 hends.2 (find_none_of_append (find_none_of_suffix hnone))
    refine ⟨[], [], ?_, fun _ h => absurd h List.not_mem_nil⟩
    rw [stripWrappers_untagged huntagged, hshape, hfence]
    dsimp only
    rw [rstrip_closed hclosed (hs₂.append hw'), strip_self hclosed]
    simp
  | afterThink before thought w =>
    obtain ⟨hbefore, hthought, hw⟩ := hallowed
    refine ⟨[], rstrip w₂, ?_, fun _ h => absurd h List.not_mem_nil⟩
    show stripWrappers isWord (before ++ ("<think>".toList ++ (thought ++ ("</think>".toList ++
      (w ++ (w₁ ++ (u ++ w₂))))))) = _
    rw [stripWrappers_block hgt hbefore hthought hagrees.1 hagrees.2, ← List.append_assoc,
      strip_closed hclosed, lstrip_nil_of_spaces (hw.append hs₁)]
  | amidProse before after =>
    obtain ⟨hbefore, hafter⟩ := hallowed
    refine ⟨lstrip (before ++ w₁), rstrip (w₂ ++ after), ?_, unmarked_lstrip ?_⟩
    · rw [stripWrappers_plain hagrees.1 hagrees.2, ← strip_closed hclosed]
      show strip (before ++ (w₁ ++ (u ++ w₂) ++ after)) = _
      simp only [List.append_assoc]
    · intro d hd
      rcases List.mem_append.mp hd with hd | hd
      · unfold isMark
        rw [(hbefore.marks d hd).1, Bool.false_or, beq_eq_false_iff_ne]
        exact (hbefore.marks d hd).2
      · exact unmarked_of_blank hw₁ d hd

theorem isOpener_of_bracket {o c : Char} (h : (o, c) ∈ brackets) :
    isOpener o = true ∧ isMark o = true ∧ o ≠ '"' := by
  simp only [brackets, List.mem_cons, Prod.mk.injEq, List.not_mem_nil, or_false] at h
  rcases h with ⟨rfl, rfl⟩ | ⟨rfl, rfl⟩ <;> decide

/-- **The scan ends where the value does**, whatever its strings hold. -/
theorem span_enclosed {x y inner : Text} {o c : Char} (hx : ∀ d ∈ x, isMark d = false)
    (hbracket : (o, c) ∈ brackets) (hinner : Skips inner) :
    firstBalancedSpan (x ++ (o :: (inner ++ [c]) ++ y)) =
      some (x.length, x.length + (o :: (inner ++ [c])).length) := by
  have hstart : (x ++ (o :: (inner ++ [c]) ++ y)).findIdx? isOpener = some x.length := by
    rw [List.findIdx?_append]
    have hnone : x.findIdx? isOpener = none := by
      rw [List.findIdx?_eq_none_iff]
      intro d hd
      obtain ⟨-, hopen, hopen', -, -⟩ := isMark_false (hx d hd)
      unfold isOpener
      simp [hopen, hopen']
    rw [hnone, Option.none_or, List.cons_append, List.findIdx?_cons,
      if_pos (isOpener_of_bracket hbracket).1]
    simp
  have hscan := balanced_open hbracket hinner [] y fun _ h => absurd h List.not_mem_nil
  unfold firstBalancedSpan
  rw [hstart]
  dsimp only
  rw [List.drop_left, List.cons_append, List.append_assoc, List.singleton_append, hscan, if_pos rfl]
  simp

theorem find_isMark_none {t : Text} (h : ∀ d ∈ t, isMark d = false) : t.find? isMark = none :=
  List.find?_eq_none.mpr fun d hd => by
    rw [h d hd]
    exact Bool.false_ne_true

/-- A value whose first mark is a bracket is an array or an object. -/
theorem isContainer_of_mark {floats : Json.FloatReader} {v : Json} {u : Text} {o : Char}
    (h : Json.Spells floats (.value v) u) (hfirst : u.find? isMark = some o) (ho : o ≠ '"') :
    IsContainer v := by
  generalize hp : Json.Part.value v = p at h
  cases h with
  | literal h =>
    rw [find_isMark_none (unmarked_of_literal h)] at hfirst
    cases hfirst
  | number p =>
    rw [find_isMark_none (unmarked_of_number p)] at hfirst
    cases hfirst
  | string h =>
    -- its first mark is its quote
    rw [List.find?_cons_of_pos (by decide)] at hfirst
    cases hfirst
    exact absurd rfl ho
  | emptyArray => cases hp; trivial
  | array => cases hp; trivial
  | emptyObject => cases hp; trivial
  | object => cases hp; trivial
  | lastItem => cases hp
  | item => cases hp
  | lastMember => cases hp
  | member => cases hp

/-- What else is read of a text around a value is that value. -/
theorem loads_unique {floats : Json.FloatReader} {x y u : Text} {v v' : Json}
    (hx : ∀ d ∈ x, isMark d = false) (h : Json.Spells floats (.value v) u) (hv : IsContainer v)
    (hloads : Json.loads floats (x ++ (u ++ y)) = some v') : v' = v := by
  obtain ⟨o, c, inner, hbracket, rfl, hinner⟩ := enclosed_of_spells h hv
  obtain ⟨w, u', w', hw, hw', htext, h'⟩ := Json.loads_iff.mp hloads
  have hfirst : (x ++ (o :: (inner ++ [c]) ++ y)).find? isMark = some o := by
    rw [List.find?_append, find_isMark_none hx, Option.none_or, List.cons_append,
      List.find?_cons_of_pos (isOpener_of_bracket hbracket).2.1]
  have hcontainer : IsContainer v' := by
    rw [htext, List.find?_append, List.find?_append, find_isMark_none (unmarked_of_blank hw),
      Option.none_or, find_isMark_none (unmarked_of_blank hw'), Option.or_none] at hfirst
    exact isContainer_of_mark h' hfirst (isOpener_of_bracket hbracket).2.2
  -- both values stand in the first balanced span of the one text
  obtain ⟨o', c', inner', hbracket', rfl, hinner'⟩ := enclosed_of_spells h' hcontainer
  have hspan := span_enclosed (y := y) hx hbracket hinner
  rw [htext, span_enclosed (unmarked_of_blank hw) hbracket' hinner', Option.some.injEq,
    Prod.mk.injEq] at hspan
  obtain ⟨-, hrest⟩ := List.append_inj htext hspan.1.symm
  obtain ⟨hsame, -⟩ := List.append_inj hrest (by omega)
  rw [← hsame] at h'
  have hvalue := (Json.loads_of_spells h').symm.trans (Json.loads_of_spells h)
  rwa [Option.some.injEq] at hvalue

theorem extractJsonValue_of_stripped {floats : Json.FloatReader} {isWord : Char → Bool}
    {reply x y u : Text} {v : Json} (hstrip : stripWrappers isWord reply = x ++ (u ++ y))
    (hx : ∀ d ∈ x, isMark d = false) (h : Json.Spells floats (.value v) u) (hv : IsContainer v) :
    extractJsonValue floats isWord reply = .ok v := by
  have hne : x ++ (u ++ y) ≠ [] := by
    obtain ⟨d, rest, rfl, -⟩ := h.head
    simp
  unfold extractJsonValue
  dsimp only
  rw [hstrip, if_neg hne]
  cases hloads : Json.loads floats (x ++ (u ++ y)) with
  | some v' => rw [loads_unique hx h hv hloads]
  | none =>
    dsimp only
    obtain ⟨o, c, inner, hbracket, rfl, hinner⟩ := enclosed_of_spells h hv
    -- the text is not a value as a whole, so its first balanced span is read
    rw [span_enclosed hx hbracket hinner]
    dsimp only
    rw [← List.append_assoc, List.take_left' (List.length_append), List.drop_left,
      Json.loads_of_spells h]

/-- What reads no float, for texts that have none. -/
def noFloats : Json.FloatReader := ⟨fun _ => ⟨"0.0".toList, by decide⟩, fun _ => rfl⟩

def isAsciiWord (c : Char) : Bool := c.isAlphanum || c == '_'

/-- An array of one string, which holds a fence. -/
def fencedString : Text := '[' :: (Json.quote "```x```".toList ++ [']'])

end JsonOutput

end FreeToken.Server
