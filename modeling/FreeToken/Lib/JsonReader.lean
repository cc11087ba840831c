import FreeToken.Lib.Json
import Mathlib.Data.List.DropRight

/-!
# Reading JSON

`json.loads` of a text: the reader (`scanOnce`), and the grammar it reads (`Spells`). What `dumps`
writes of a value that was read is read back. A lone surrogate is no `Char`, and an escape of one
is not read. Main results:

* `loads_iff`: what is read is what the grammar has.
* `loads_dumps`: a value that was read, written and read again.
-/

namespace FreeToken.Lib.Json

/-! ## White space -/

/-- `WHITESPACE_STR`. -/
def isWs (c : Char) : Bool := c == ' ' || c == '\t' || c == '\n' || c == '\r'

def skipWs (text : List Char) : List Char := text.dropWhile isWs

/-! ## Strings -/

/-- `BACKSLASH`. -/
def unescape : Char → Option Char
  | '"' => some '"'
  | '\\' => some '\\'
  | '/' => some '/'
  | 'b' => some (Char.ofNat 8)
  | 'f' => some (Char.ofNat 12)
  | 'n' => some '\n'
  | 'r' => some '\r'
  | 't' => some '\t'
  | _ => none

def hexValue (c : Char) : Option Nat :=
  if c.isDigit then some (c.toNat - '0'.toNat)
  else if 'a' ≤ c ∧ c ≤ 'f' then some (c.toNat - 'a'.toNat + 10)
  else if 'A' ≤ c ∧ c ≤ 'F' then some (c.toNat - 'A'.toNat + 10)
  else none

/-- The four digits of a `\uXXXX`. -/
def readHex4 : List Char → Option (Nat × List Char)
  | a :: b :: c :: d :: rest =>
    match hexValue a, hexValue b, hexValue c, hexValue d with
    | some a, some b, some c, some d => some (((a * 16 + b) * 16 + c) * 16 + d, rest)
    | _, _, _, _ => none
  | _ => none

def isHighSurrogate (n : Nat) : Bool := 0xD800 ≤ n && n < 0xDC00

def isLowSurrogate (n : Nat) : Bool := 0xDC00 ≤ n && n < 0xE000

/-- The character of two surrogates. -/
def joinSurrogates (high low : Nat) : Char :=
  Char.ofNat (0x10000 + (high - 0xD800) * 0x400 + (low - 0xDC00))

/-- What is behind a `\u`. -/
def readUnicode (text : List Char) : Option (Char × List Char) :=
  match readHex4 text with
  | none => none
  | some (n, rest) =>
    if isHighSurrogate n then
      match rest with
      | '\\' :: 'u' :: rest =>
        match readHex4 rest with
        | none => none
        | some (m, rest) => if isLowSurrogate m then some (joinSurrogates n m, rest) else none
      | _ => none
    else if isLowSurrogate n then none
    else some (Char.ofNat n, rest)

/-- One character of a string; a control character has to be escaped. -/
def readChar : List Char → Option (Char × List Char)
  | [] => none
  | c :: rest =>
    if c = '\\' then
      match rest with
      | [] => none
      | e :: rest => if e = 'u' then readUnicode rest else (unescape e).map (·, rest)
    else if c.toNat < 32 then none
    else some (c, rest)

/-- `scanstring`, behind the opening quote. -/
def scanString : Nat → List Char → Option (List Char × List Char)
  | 0, _ => none
  | _, [] => none
  | fuel + 1, c :: rest =>
    if c = '"' then some ([], rest)
    else
      match readChar (c :: rest) with
      | none => none
      | some (c, rest) => (scanString fuel rest).map fun r => (c :: r.1, r.2)

/-! ## Numbers -/

/-- What `float` reads of a text, as the `repr` of the number; reading the `repr` gives it back. -/
structure FloatReader where
  read : List Char → FloatText
  read_read : ∀ text, read (read text).text = read text

def splitSign : List Char → List Char × List Char
  | '-' :: rest => (['-'], rest)
  | text => ([], text)

/-- `0|[1-9]\d*`. -/
def splitWhole : List Char → Option (List Char × List Char)
  | [] => none
  | c :: rest =>
    if c = '0' then some (['0'], rest)
    else if c.isDigit then some (c :: rest.takeWhile Char.isDigit, rest.dropWhile Char.isDigit)
    else none

/-- `(\.\d+)?`. -/
def splitFrac : List Char → List Char × List Char
  | [] => ([], [])
  | c :: rest =>
    if c = '.' ∧ rest.takeWhile Char.isDigit ≠ [] then
      ('.' :: rest.takeWhile Char.isDigit, rest.dropWhile Char.isDigit)
    else ([], c :: rest)

def splitExpSign : List Char → List Char × List Char
  | [] => ([], [])
  | c :: rest => if c = '+' ∨ c = '-' then ([c], rest) else ([], c :: rest)

/-- `([eE][-+]?\d+)?`. -/
def splitExp : List Char → List Char × List Char
  | [] => ([], [])
  | c :: rest =>
    if (c = 'e' ∨ c = 'E') ∧ (splitExpSign rest).2.takeWhile Char.isDigit ≠ [] then
      (c :: ((splitExpSign rest).1 ++ (splitExpSign rest).2.takeWhile Char.isDigit),
        (splitExpSign rest).2.dropWhile Char.isDigit)
    else ([], c :: rest)

def intOf (sign whole : List Char) : Int :=
  if sign = [] then (Nat.ofDigitChars 10 whole 0 : Int) else -(Nat.ofDigitChars 10 whole 0 : Int)

/-- `_match_number`. -/
def readNumber (floats : FloatReader) (text : List Char) : Option (Json × List Char) :=
  let sign := splitSign text
  match splitWhole sign.2 with
  | none => none
  | some (whole, rest) =>
    let frac := splitFrac rest
    let exp := splitExp frac.2
    if frac.1 = [] ∧ exp.1 = [] then some (.int (intOf sign.1 whole), exp.2)
    else some (.float (floats.read (sign.1 ++ (whole ++ (frac.1 ++ exp.1)))), exp.2)

/-! ## Values -/

/-- The words, and the floats that have no digits. -/
def literals : List (List Char × Json) :=
  [("null".toList, .null), ("true".toList, .bool true), ("false".toList, .bool false),
    ("NaN".toList, .float ⟨"NaN".toList, by decide⟩),
    ("Infinity".toList, .float ⟨"Infinity".toList, by decide⟩),
    ("-Infinity".toList, .float ⟨"-Infinity".toList, by decide⟩)]

def readAtom (floats : FloatReader) (text : List Char) : Option (Json × List Char) :=
  match literals.find? fun l => l.1.isPrefixOf text with
  | some l => some (l.2, text.drop l.1.length)
  | none => readNumber floats text

/-- A later value of a key takes the place of the earlier. -/
def put (members : List (List Char × Json)) (m : List Char × Json) : List (List Char × Json) :=
  if (members.map Prod.fst).contains m.1 then members.map fun m' => if m'.1 = m.1 then m else m'
  else members ++ [m]

def dict (members : List (List Char × Json)) : List (List Char × Json) := members.foldl put []

mutual

/-- `scan_once`. -/
def scanOnce (floats : FloatReader) : Nat → List Char → Option (Json × List Char)
  | 0, _ => none
  | _, [] => none
  | fuel + 1, c :: rest =>
    if c = '"' then (scanString fuel rest).map fun r => (.str r.1, r.2)
    else if c = '[' then
      if (skipWs rest).head? = some ']' then some (.array [], (skipWs rest).tail)
      else (scanItems floats fuel (skipWs rest)).map fun r => (.array r.1, r.2)
    else if c = '{' then
      if (skipWs rest).head? = some '}' then some (.object [], (skipWs rest).tail)
      else (scanMembers floats fuel (skipWs rest)).map fun r => (.object (dict r.1), r.2)
    else readAtom floats (c :: rest)

/-- The items of `JSONArray`, with the closing bracket. -/
def scanItems (floats : FloatReader) : Nat → List Char → Option (List Json × List Char)
  | 0, _ => none
  | fuel + 1, text =>
    match scanOnce floats fuel text with
    | none => none
    | some (v, rest) =>
      match skipWs rest with
      | [] => none
      | c :: rest =>
        if c = ']' then some ([v], rest)
        else if c = ',' then
          (scanItems floats fuel (skipWs rest)).map fun r => (v :: r.1, r.2)
        else none

/-- The members of `JSONObject`, with the closing brace. -/
def scanMembers (floats : FloatReader) :
    Nat → List Char → Option (List (List Char × Json) × List Char)
  | 0, _ => none
  | fuel + 1, text =>
    if text.head? = some '"' then
      match scanString fuel text.tail with
      | none => none
      | some (k, rest) =>
        if (skipWs rest).head? = some ':' then
          match scanOnce floats fuel (skipWs (skipWs rest).tail) with
          | none => none
          | some (v, rest) =>
            match skipWs rest with
            | [] => none
            | c :: rest =>
              if c = '}' then some ([(k, v)], rest)
              else if c = ',' then
                (scanMembers floats fuel (skipWs rest)).map fun r => ((k, v) :: r.1, r.2)
              else none
        else none
    else none

end

/-- `json.loads`. -/
def loads (floats : FloatReader) (text : List Char) : Option Json :=
  match scanOnce floats (text.length + 1) (skipWs text) with
  | none => none
  | some (v, rest) => if skipWs rest = [] then some v else none

/-! ## The grammar -/

/-- How a character may stand in a string. -/
inductive CharText : Char → List Char → Prop where
  | plain {c : Char} (hcontrol : ¬c.toNat < 32) (hquote : c ≠ '"') (hslash : c ≠ '\\') :
      CharText c [c]
  | short {c e : Char} (h : unescape e = some c) : CharText c ['\\', e]
  | unicode {n : Nat} {hex : List Char} (h : readHex4 hex = some (n, []))
      (hhigh : isHighSurrogate n = false) (hlow : isLowSurrogate n = false) :
      CharText (Char.ofNat n) ('\\' :: 'u' :: hex)
  | pair {n m : Nat} {hex hex' : List Char} (h : readHex4 hex = some (n, []))
      (h' : readHex4 hex' = some (m, [])) (hhigh : isHighSurrogate n = true)
      (hlow : isLowSurrogate m = true) :
      CharText (joinSurrogates n m) ('\\' :: 'u' :: (hex ++ '\\' :: 'u' :: hex'))

inductive BodyText : List Char → List Char → Prop where
  | nil : BodyText [] []
  | cons {c : Char} {s text rest : List Char} (h : CharText c text) (hs : BodyText s rest) :
      BodyText (c :: s) (text ++ rest)

def isNumberChar (c : Char) : Bool :=
  c.isDigit || c == '.' || c == 'e' || c == 'E' || c == '+' || c == '-'

/-- No number goes on here. -/
def Stops (rest : List Char) : Prop := ∀ c ∈ rest.head?, isNumberChar c = false

def IsDigits (text : List Char) : Prop := text ≠ [] ∧ ∀ c ∈ text, c.isDigit = true

/-- The text of a number, in its parts. -/
structure NumberText where
  sign : List Char
  whole : List Char
  frac : List Char
  exp : List Char
  signed : sign = [] ∨ sign = ['-']
  wholeDigits : whole = ['0'] ∨ IsDigits whole ∧ whole.head? ≠ some '0'
  fracDigits : frac = [] ∨ ∃ ds, IsDigits ds ∧ frac = '.' :: ds
  expDigits : exp = [] ∨ ∃ e s ds, (e = 'e' ∨ e = 'E') ∧ (s = [] ∨ s = ['+'] ∨ s = ['-']) ∧
    IsDigits ds ∧ exp = e :: (s ++ ds)

namespace NumberText

variable (p : NumberText)

def text : List Char := p.sign ++ (p.whole ++ (p.frac ++ p.exp))

def value (floats : FloatReader) : Json :=
  if p.frac = [] ∧ p.exp = [] then .int (intOf p.sign p.whole) else .float (floats.read p.text)

end NumberText

/-- White space only. -/
def Blank (text : List Char) : Prop := ∀ c ∈ text, isWs c = true

inductive Part where
  | value (v : Json)
  | items (vs : List Json)
  | members (ms : List (List Char × Json))

/-- The texts of a value, and those of what an open bracket has in front of it. -/
inductive Spells (floats : FloatReader) : Part → List Char → Prop where
  | literal {v : Json} {text : List Char} (h : (text, v) ∈ literals) :
      Spells floats (.value v) text
  | number (p : NumberText) : Spells floats (.value (p.value floats)) p.text
  | string {s body : List Char} (h : BodyText s body) :
      Spells floats (.value (.str s)) ('"' :: (body ++ ['"']))
  | emptyArray {w : List Char} (hw : Blank w) :
      Spells floats (.value (.array [])) ('[' :: (w ++ [']']))
  | array {w text : List Char} {vs : List Json} (hw : Blank w)
      (h : Spells floats (.items vs) text) : Spells floats (.value (.array vs)) ('[' :: (w ++ text))
  | emptyObject {w : List Char} (hw : Blank w) :
      Spells floats (.value (.object [])) ('{' :: (w ++ ['}']))
  | object {w text : List Char} {ms : List (List Char × Json)} (hw : Blank w)
      (h : Spells floats (.members ms) text) :
      Spells floats (.value (.object (dict ms))) ('{' :: (w ++ text))
  | lastItem {v : Json} {text w : List Char} (h : Spells floats (.value v) text) (hw : Blank w) :
      Spells floats (.items [v]) (text ++ (w ++ [']']))
  | item {v : Json} {vs : List Json} {text w w' rest : List Char}
      (h : Spells floats (.value v) text) (hw : Blank w) (hw' : Blank w')
      (hs : Spells floats (.items vs) rest) :
      Spells floats (.items (v :: vs)) (text ++ (w ++ ',' :: (w' ++ rest)))
  | lastMember {k body : List Char} {v : Json} {text w w' w₃ : List Char}
      (hk : BodyText k body) (hw : Blank w) (hw' : Blank w')
      (h : Spells floats (.value v) text) (hw₃ : Blank w₃) :
      Spells floats (.members [(k, v)])
        ('"' :: (body ++ '"' :: (w ++ ':' :: (w' ++ (text ++ (w₃ ++ ['}']))))))
  | member {k body : List Char} {v : Json} {ms : List (List Char × Json)}
      {text w w' w₃ w₄ rest : List Char} (hk : BodyText k body) (hw : Blank w) (hw' : Blank w')
      (h : Spells floats (.value v) text) (hw₃ : Blank w₃) (hw₄ : Blank w₄)
      (hs : Spells floats (.members ms) rest) :
      Spells floats (.members ((k, v) :: ms))
        ('"' :: (body ++ '"' :: (w ++ ':' :: (w' ++ (text ++ (w₃ ++ ',' :: (w₄ ++ rest)))))))

/-! ## White space and strings -/

theorem span_digits {ds rest : List Char} (hds : ∀ c ∈ ds, c.isDigit = true)
    (hrest : ∀ c ∈ rest.head?, c.isDigit = false) :
    (ds ++ rest).takeWhile Char.isDigit = ds ∧ (ds ++ rest).dropWhile Char.isDigit = rest := by
  rw [List.takeWhile_append_of_pos hds, List.dropWhile_append_of_pos hds]
  cases rest with
  | nil => simp
  | cons c rest =>
    have hc := hrest c rfl
    simp [hc]

theorem skipWs_append {w rest : List Char} (hw : Blank w)
    (hrest : ∀ c ∈ rest.head?, isWs c = false) : skipWs (w ++ rest) = rest := by
  rw [skipWs, List.dropWhile_append_of_pos hw]
  cases rest with
  | nil => rfl
  | cons c rest => rw [List.dropWhile_cons_of_neg (by rw [hrest c rfl]; exact Bool.false_ne_true)]

theorem skipWs_split (text : List Char) : ∃ w, Blank w ∧ text = w ++ skipWs text :=
  ⟨text.takeWhile isWs, fun _ hc => List.mem_takeWhile_imp hc, List.takeWhile_append_dropWhile.symm⟩

theorem readHex4_spec {text rest : List Char} {n : Nat} (h : readHex4 text = some (n, rest)) :
    ∃ hex, text = hex ++ rest ∧ ∀ x, readHex4 (hex ++ x) = some (n, x) := by
  match text, h with
  | a :: b :: c :: d :: t, h =>
    refine ⟨[a, b, c, d], ?_⟩
    simp only [readHex4] at h ⊢
    split at h
    · rename_i ha hb hc hd
      cases h
      exact ⟨rfl, fun x => by simp [ha, hb, hc, hd]⟩
    · cases h

theorem readHex4_append {hex : List Char} {n : Nat} (h : readHex4 hex = some (n, []))
    (x : List Char) : readHex4 (hex ++ x) = some (n, x) := by
  obtain ⟨hex', hsplit, hread⟩ := readHex4_spec h
  rw [List.append_nil] at hsplit
  exact hsplit ▸ hread x

theorem readUnicode_spec {text rest : List Char} {c : Char}
    (h : readUnicode text = some (c, rest)) :
    ∃ u, text = u ++ rest ∧ CharText c ('\\' :: 'u' :: u) := by
  unfold readUnicode at h
  split at h
  · cases h
  · rename_i n rest' hhex
    obtain ⟨hex, rfl, hread⟩ := readHex4_spec hhex
    have hfirst := hread []
    rw [List.append_nil] at hfirst
    split at h
    · -- the first half of a pair needs a second one
      rename_i hhigh
      split at h
      · split at h
        · cases h
        · rename_i m rest'' hhex'
          obtain ⟨hex', rfl, hread'⟩ := readHex4_spec hhex'
          have hsecond := hread' []
          rw [List.append_nil] at hsecond
          split at h
          · rename_i hlow
            rw [Option.some.injEq, Prod.mk.injEq] at h
            obtain ⟨rfl, rfl⟩ := h
            refine ⟨hex ++ '\\' :: 'u' :: hex', ?_, .pair hfirst hsecond hhigh hlow⟩
            rw [List.append_assoc]
            rfl
          · cases h
      · cases h
    · -- and a second half does not stand alone
      rename_i hhigh
      split at h
      · cases h
      · rename_i hlow
        rw [Option.some.injEq, Prod.mk.injEq] at h
        obtain ⟨rfl, rfl⟩ := h
        exact ⟨hex, rfl,
          .unicode hfirst (Bool.eq_false_iff.mpr hhigh) (Bool.eq_false_iff.mpr hlow)⟩

theorem CharText.reads {c : Char} {text : List Char} (h : CharText c text) (rest : List Char) :
    readChar (text ++ rest) = some (c, rest) := by
  cases h with
  | plain hcontrol hquote hslash => simp [readChar, hcontrol, hslash]
  | short h =>
    rename_i e
    have hu : e ≠ 'u' := by
      rintro rfl
      cases h
    simp [readChar, hu, h]
  | unicode h hhigh hlow => simp [readChar, readUnicode, readHex4_append h, hhigh, hlow]
  | pair h h' hhigh hlow =>
    simp [readChar, readUnicode, readHex4_append h, readHex4_append h', hhigh, hlow]

theorem CharText.head {c : Char} {text : List Char} (h : CharText c text) :
    ∃ d rest, text = d :: rest ∧ d ≠ '"' := by
  cases h with
  | plain hcontrol hquote hslash => exact ⟨c, [], rfl, hquote⟩
  | short h => exact ⟨_, _, rfl, by decide⟩
  | unicode h hhigh hlow => exact ⟨_, _, rfl, by decide⟩
  | pair h h' hhigh hlow => exact ⟨_, _, rfl, by decide⟩

theorem readChar_spec {d c : Char} {text rest : List Char} (hquote : d ≠ '"')
    (h : readChar (d :: text) = some (c, rest)) :
    ∃ u, d :: text = u ++ rest ∧ CharText c u := by
  by_cases hslash : d = '\\'
  · subst hslash
    cases text with
    | nil => cases h
    | cons e text =>
      by_cases hu : e = 'u'
      · subst hu
        obtain ⟨u, rfl, hchar⟩ := readUnicode_spec h
        exact ⟨_, rfl, hchar⟩
      · -- any other escape stands for one character
        have hshort : (unescape e).map (·, text) = some (c, rest) := (if_neg hu).symm.trans h
        rw [Option.map_eq_some_iff] at hshort
        obtain ⟨c', hc, hpair⟩ := hshort
        cases hpair
        exact ⟨['\\', e], rfl, .short hc⟩
  · simp only [readChar, if_neg hslash] at h
    by_cases hcontrol : d.toNat < 32
    · rw [if_pos hcontrol] at h
      cases h
    · rw [if_neg hcontrol, Option.some.injEq, Prod.mk.injEq] at h
      obtain ⟨rfl, rfl⟩ := h
      exact ⟨[d], rfl, .plain hcontrol hquote hslash⟩

/-- A string is read to its closing quote. -/
theorem BodyText.scan {s body : List Char} (h : BodyText s body) (rest : List Char) :
    ∀ {fuel : Nat}, body.length < fuel →
      scanString fuel (body ++ '"' :: rest) = some (s, rest) := by
  induction h with
  | nil =>
    intro fuel hfuel
    obtain ⟨fuel, rfl⟩ := Nat.exists_eq_add_of_lt hfuel
    rw [List.length_nil, Nat.zero_add]
    rfl
  | @cons c s text body hchar hs ih =>
    intro fuel hfuel
    -- what spells a character does not begin with the closing quote
    obtain ⟨d, text', rfl, hquote⟩ := hchar.head
    have hread := hchar.reads (body ++ '"' :: rest)
    rw [List.length_append, List.length_cons] at hfuel
    cases fuel with
    | zero => omega
    | succ fuel =>
      rw [List.cons_append] at hread
      rw [List.append_assoc, List.cons_append]
      simp only [scanString, if_neg hquote, hread]
      rw [ih (by omega)]
      rfl

theorem scanString_spec : ∀ {fuel : Nat} {text s rest : List Char},
    scanString fuel text = some (s, rest) →
    ∃ body, text = body ++ '"' :: rest ∧ BodyText s body := by
  intro fuel
  induction fuel with
  | zero =>
    intro text s rest h
    cases h
  | succ fuel ih =>
    intro text s rest h
    cases text with
    | nil => cases h
    | cons c text =>
      rw [scanString] at h
      split at h
      · -- the closing quote
        rename_i hquote
        cases h
        exact ⟨[], by rw [hquote]; rfl, .nil⟩
      · rename_i hquote
        split at h
        · cases h
        · rename_i c' text' hread
          obtain ⟨u, hsplit, hchar⟩ := readChar_spec hquote hread
          rw [Option.map_eq_some_iff] at h
          obtain ⟨⟨s', rest'⟩, hscan, h⟩ := h
          cases h
          obtain ⟨body, rfl, hbody⟩ := ih hscan
          exact ⟨u ++ body, by rw [hsplit, List.append_assoc], .cons hchar hbody⟩

/-! ## Numbers and words -/

theorem Stops.digit {rest : List Char} (h : Stops rest) :
    ∀ c ∈ rest.head?, c.isDigit = false ∧ c ≠ '.' ∧ c ≠ 'e' ∧ c ≠ 'E' := by
  intro c hc
  have hstop := h c hc
  unfold isNumberChar at hstop
  simp only [Bool.or_eq_false_iff, beq_eq_false_iff_ne] at hstop
  exact ⟨hstop.1.1.1.1.1, hstop.1.1.1.1.2, hstop.1.1.1.2, hstop.1.1.2⟩

theorem IsDigits.cons {ds : List Char} (h : IsDigits ds) :
    ∃ d rest, ds = d :: rest ∧ d.isDigit = true := by
  cases ds with
  | nil => exact absurd rfl h.1
  | cons d rest => exact ⟨d, rest, rfl, h.2 d List.mem_cons_self⟩

namespace NumberText

variable (p : NumberText) {rest : List Char}

theorem whole_cons : ∃ d ds, p.whole = d :: ds ∧ d.isDigit = true := by
  rcases p.wholeDigits with h | ⟨h, -⟩
  · exact ⟨'0', [], h, by decide⟩
  · exact h.cons

theorem exp_head (hrest : Stops rest) :
    ∀ c ∈ (p.exp ++ rest).head?, c.isDigit = false ∧ c ≠ '.' := by
  intro c hc
  rcases p.expDigits with h | ⟨e, s, ds, he, -, -, h⟩
  · rw [h] at hc
    exact ⟨(hrest.digit c hc).1, (hrest.digit c hc).2.1⟩
  · rw [h] at hc
    cases hc
    rcases he with rfl | rfl <;> decide

theorem frac_head (hrest : Stops rest) :
    ∀ c ∈ (p.frac ++ (p.exp ++ rest)).head?, c.isDigit = false := by
  intro c hc
  rcases p.fracDigits with h | ⟨ds, -, h⟩
  · rw [h] at hc
    exact (p.exp_head hrest c hc).1
  · rw [h] at hc
    cases hc
    decide

theorem splitSign_text (x : List Char) :
    splitSign (p.sign ++ (p.whole ++ x)) = (p.sign, p.whole ++ x) := by
  obtain ⟨d, ds, hwhole, hd⟩ := p.whole_cons
  rcases p.signed with h | h
  · rw [h, hwhole]
    unfold splitSign
    split
    · -- the digit that comes first is no sign
      rename_i heq
      cases heq
      exact absurd hd (by decide)
    · rfl
  · rw [h]
    rfl

theorem splitWhole_text {x : List Char} (hx : ∀ c ∈ x.head?, c.isDigit = false) :
    splitWhole (p.whole ++ x) = some (p.whole, x) := by
  rcases p.wholeDigits with h | ⟨h, hzero⟩
  · rw [h]
    rfl
  · obtain ⟨d, ds, hwhole, hd⟩ := h.cons
    have hds : ∀ c ∈ ds, c.isDigit = true := fun c hc =>
      h.2 c (hwhole ▸ List.mem_cons_of_mem d hc)
    have hne : d ≠ '0' := by
      rintro rfl
      exact hzero (by rw [hwhole]; rfl)
    obtain ⟨htake, hdrop⟩ := span_digits hds hx
    rw [hwhole]
    simp [splitWhole, hne, hd, htake, hdrop]

theorem splitFrac_text {x : List Char} (hx : ∀ c ∈ x.head?, c.isDigit = false ∧ c ≠ '.') :
    splitFrac (p.frac ++ x) = (p.frac, x) := by
  rcases p.fracDigits with h | ⟨ds, hds, h⟩
  · rw [h]
    cases x with
    | nil => rfl
    | cons c x => simp [splitFrac, (hx c rfl).2]
  · obtain ⟨htake, hdrop⟩ := span_digits hds.2 fun c hc => (hx c hc).1
    rw [h]
    simp [splitFrac, htake, hdrop, hds.1]

theorem splitExp_text (hrest : Stops rest) : splitExp (p.exp ++ rest) = (p.exp, rest) := by
  rcases p.expDigits with h | ⟨e, s, ds, he, hs, hds, h⟩
  · rw [h]
    cases rest with
    | nil => rfl
    | cons c rest => simp [splitExp, (hrest.digit c rfl).2.2]
  · obtain ⟨htake, hdrop⟩ := span_digits hds.2 fun c hc => (hrest.digit c hc).1
    have hsign : splitExpSign (s ++ (ds ++ rest)) = (s, ds ++ rest) := by
      obtain ⟨d, ds', hcons, hd⟩ := hds.cons
      -- without a sign, the digit behind the `e` is not taken for one
      rcases hs with rfl | rfl | rfl
      · have hplus : d ≠ '+' := by
          rintro rfl
          exact absurd hd (by decide)
        have hminus : d ≠ '-' := by
          rintro rfl
          exact absurd hd (by decide)
        rw [hcons]
        simp [splitExpSign, hplus, hminus]
      · rfl
      · rfl
    rw [h, List.cons_append, List.append_assoc]
    simp [splitExp, hsign, htake, hdrop, he, hds.1]

/-- A number is read up to what stops it. -/
theorem reads (floats : FloatReader) (hrest : Stops rest) :
    readNumber floats (p.text ++ rest) = some (p.value floats, rest) := by
  have hwhole := p.splitWhole_text (p.frac_head hrest)
  have hfrac := p.splitFrac_text (p.exp_head hrest)
  unfold text
  simp only [List.append_assoc, readNumber, p.splitSign_text, hwhole, hfrac,
    p.splitExp_text hrest]
  unfold value text
  split <;> rfl

theorem no_literal (x : List Char) :
    (literals.find? fun l => l.1.isPrefixOf (p.text ++ x)) = none := by
  obtain ⟨d, ds, hwhole, hd⟩ := p.whole_cons
  have hne : ∀ c : Char, c.isDigit = false → (c == d) = false := by
    intro c hc
    rw [beq_eq_false_iff_ne]
    rintro rfl
    rw [hd] at hc
    cases hc
  unfold text
  rcases p.signed with h | h <;>
    simp [h, hwhole, literals, List.isPrefixOf, hne 'n' (by decide), hne 't' (by decide),
      hne 'f' (by decide), hne 'N' (by decide), hne 'I' (by decide), hne '-' (by decide)]

theorem reads_atom (floats : FloatReader) (hrest : Stops rest) :
    readAtom floats (p.text ++ rest) = some (p.value floats, rest) := by
  rw [readAtom, p.no_literal]
  exact p.reads floats hrest

end NumberText

theorem find_literal {text : List Char} {v : Json} (h : (text, v) ∈ literals) (rest : List Char) :
    literals.find? (fun l => l.1.isPrefixOf (text ++ rest)) = some (text, v) := by
  simp only [literals, List.mem_cons, Prod.mk.injEq, List.not_mem_nil, or_false] at h
  rcases h with ⟨rfl, rfl⟩ | ⟨rfl, rfl⟩ | ⟨rfl, rfl⟩ | ⟨rfl, rfl⟩ | ⟨rfl, rfl⟩ | ⟨rfl, rfl⟩ <;> rfl

theorem readAtom_literal {floats : FloatReader} {text : List Char} {v : Json}
    (h : (text, v) ∈ literals) (rest : List Char) :
    readAtom floats (text ++ rest) = some (v, rest) := by
  rw [readAtom, find_literal h]
  simp only [List.drop_left]

theorem splitSign_spec (text : List Char) : text = (splitSign text).1 ++ (splitSign text).2 ∧
    ((splitSign text).1 = [] ∨ (splitSign text).1 = ['-']) := by
  unfold splitSign
  split
  · exact ⟨rfl, Or.inr rfl⟩
  · exact ⟨rfl, Or.inl rfl⟩

theorem takeWhile_digits {text : List Char} (h : text.takeWhile Char.isDigit ≠ []) :
    IsDigits (text.takeWhile Char.isDigit) :=
  ⟨h, fun _ hc => List.mem_takeWhile_imp hc⟩

theorem splitWhole_spec {text whole rest : List Char} (h : splitWhole text = some (whole, rest)) :
    text = whole ++ rest ∧ (whole = ['0'] ∨ IsDigits whole ∧ whole.head? ≠ some '0') := by
  cases text with
  | nil => cases h
  | cons c text =>
    simp only [splitWhole] at h
    split at h
    · rename_i hzero
      cases h
      exact ⟨by rw [hzero]; rfl, Or.inl rfl⟩
    · rename_i hzero
      split at h
      · rename_i hd
        cases h
        refine ⟨by rw [List.cons_append, List.takeWhile_append_dropWhile], Or.inr ⟨⟨?_, ?_⟩, ?_⟩⟩
        · exact List.cons_ne_nil _ _
        · intro d hmem
          rcases List.mem_cons.mp hmem with rfl | hmem
          · exact hd
          · exact List.mem_takeWhile_imp hmem
        · simpa using hzero
      · cases h

theorem splitFrac_spec (text : List Char) : text = (splitFrac text).1 ++ (splitFrac text).2 ∧
    ((splitFrac text).1 = [] ∨ ∃ ds, IsDigits ds ∧ (splitFrac text).1 = '.' :: ds) := by
  cases text with
  | nil => exact ⟨rfl, Or.inl rfl⟩
  | cons c text =>
    simp only [splitFrac]
    split
    · rename_i h
      refine ⟨?_, Or.inr ⟨_, takeWhile_digits h.2, rfl⟩⟩
      rw [h.1, List.cons_append, List.takeWhile_append_dropWhile]
    · exact ⟨rfl, Or.inl rfl⟩

theorem splitExpSign_spec (text : List Char) :
    text = (splitExpSign text).1 ++ (splitExpSign text).2 ∧ ((splitExpSign text).1 = [] ∨
      (splitExpSign text).1 = ['+'] ∨ (splitExpSign text).1 = ['-']) := by
  cases text with
  | nil => exact ⟨rfl, Or.inl rfl⟩
  | cons c text =>
    simp only [splitExpSign]
    split
    · rename_i h
      rcases h with rfl | rfl
      · exact ⟨rfl, Or.inr (Or.inl rfl)⟩
      · exact ⟨rfl, Or.inr (Or.inr rfl)⟩
    · exact ⟨rfl, Or.inl rfl⟩

theorem splitExp_spec (text : List Char) : text = (splitExp text).1 ++ (splitExp text).2 ∧
    ((splitExp text).1 = [] ∨ ∃ e s ds, (e = 'e' ∨ e = 'E') ∧
      (s = [] ∨ s = ['+'] ∨ s = ['-']) ∧ IsDigits ds ∧ (splitExp text).1 = e :: (s ++ ds)) := by
  cases text with
  | nil => exact ⟨rfl, Or.inl rfl⟩
  | cons c text =>
    obtain ⟨hsplit, hsign⟩ := splitExpSign_spec text
    simp only [splitExp]
    split
    · rename_i h
      refine ⟨?_, Or.inr ⟨c, _, _, h.1, hsign, takeWhile_digits h.2, rfl⟩⟩
      rw [List.cons_append, List.append_assoc, List.takeWhile_append_dropWhile, ← hsplit]
    · exact ⟨rfl, Or.inl rfl⟩

theorem readNumber_spec {floats : FloatReader} {text rest : List Char} {v : Json}
    (h : readNumber floats text = some (v, rest)) :
    ∃ p : NumberText, text = p.text ++ rest ∧ v = p.value floats := by
  obtain ⟨hsign, hsigned⟩ := splitSign_spec text
  simp only [readNumber] at h
  split at h
  · cases h
  · rename_i whole rest' hwhole
    obtain ⟨hsplit, hdigits⟩ := splitWhole_spec hwhole
    obtain ⟨hfrac, hfracDigits⟩ := splitFrac_spec rest'
    obtain ⟨hexp, hexpDigits⟩ := splitExp_spec (splitFrac rest').2
    refine ⟨⟨(splitSign text).1, whole, (splitFrac rest').1, (splitExp (splitFrac rest').2).1,
      hsigned, hdigits, hfracDigits, hexpDigits⟩, ?_, ?_⟩
    · split at h <;> cases h <;>
        rw [NumberText.text, List.append_assoc, List.append_assoc, List.append_assoc, ← hexp,
          ← hfrac, ← hsplit, ← hsign]
    · unfold NumberText.value NumberText.text
      split at h
      · rename_i hint
        cases h
        rw [if_pos hint]
      · rename_i hfloat
        cases h
        rw [if_neg hfloat]

theorem readAtom_spec {floats : FloatReader} {text rest : List Char} {v : Json}
    (h : readAtom floats text = some (v, rest)) :
    ∃ u, text = u ++ rest ∧ Spells floats (.value v) u := by
  unfold readAtom at h
  split at h
  · -- one of the words
    rename_i l hl
    cases h
    have hpre := List.find?_some hl
    rw [List.isPrefixOf_iff_prefix] at hpre
    refine ⟨l.1, ?_, .literal (List.mem_of_find?_eq_some hl)⟩
    exact (List.prefix_iff_eq_append.mp hpre).symm
  · obtain ⟨p, hsplit, rfl⟩ := readNumber_spec h
    exact ⟨p.text, hsplit, .number p⟩

/-! ## The reader and the grammar -/

/-- What a reader takes has the shape of the grammar. -/
structure Sound (floats : FloatReader) (fuel : Nat) : Prop where
  value : ∀ text v rest, scanOnce floats fuel text = some (v, rest) →
    ∃ u, text = u ++ rest ∧ Spells floats (.value v) u
  items : ∀ text vs rest, scanItems floats fuel text = some (vs, rest) →
    ∃ u, text = u ++ rest ∧ Spells floats (.items vs) u
  members : ∀ text ms rest, scanMembers floats fuel text = some (ms, rest) →
    ∃ u, text = u ++ rest ∧ Spells floats (.members ms) u

namespace Sound

variable {floats : FloatReader} {fuel : Nat}

theorem eq_cons_of_head {text : List Char} {c : Char} (h : text.head? = some c) :
    text = c :: text.tail := by
  cases text with
  | nil => cases h
  | cons d text =>
    cases h
    rfl

theorem value_succ (h : Sound floats fuel) {text rest : List Char} {v : Json}
    (hscan : scanOnce floats (fuel + 1) text = some (v, rest)) :
    ∃ u, text = u ++ rest ∧ Spells floats (.value v) u := by
  cases text with
  | nil => cases hscan
  | cons c text =>
    obtain ⟨w, hw, hsplit⟩ := skipWs_split text
    rw [scanOnce] at hscan
    split at hscan
    · -- a string
      rename_i hc
      rw [Option.map_eq_some_iff] at hscan
      obtain ⟨⟨s, rest'⟩, hstring, hpair⟩ := hscan
      cases hpair
      obtain ⟨body, rfl, hbody⟩ := scanString_spec hstring
      exact ⟨'"' :: (body ++ ['"']), by simp [hc], .string hbody⟩
    · split at hscan
      · -- an array, empty or not
        rename_i hc
        split at hscan
        · rename_i hclose
          cases hscan
          refine ⟨'[' :: (w ++ [']']), ?_, .emptyArray hw⟩
          rw [hc, List.cons_append, List.append_assoc, List.singleton_append,
            ← eq_cons_of_head hclose, ← hsplit]
        · rw [Option.map_eq_some_iff] at hscan
          obtain ⟨⟨vs, rest'⟩, hitems, hpair⟩ := hscan
          cases hpair
          obtain ⟨u, hu, hspells⟩ := h.items _ _ _ hitems
          refine ⟨'[' :: (w ++ u), ?_, .array hw hspells⟩
          rw [hc, List.cons_append, List.append_assoc, ← hu, ← hsplit]
      · split at hscan
        · -- an object, empty or not
          rename_i hc
          split at hscan
          · rename_i hclose
            cases hscan
            refine ⟨'{' :: (w ++ ['}']), ?_, .emptyObject hw⟩
            rw [hc, List.cons_append, List.append_assoc, List.singleton_append,
              ← eq_cons_of_head hclose, ← hsplit]
          · rw [Option.map_eq_some_iff] at hscan
            obtain ⟨⟨ms, rest'⟩, hmembers, hpair⟩ := hscan
            cases hpair
            obtain ⟨u, hu, hspells⟩ := h.members _ _ _ hmembers
            refine ⟨'{' :: (w ++ u), ?_, .object hw hspells⟩
            rw [hc, List.cons_append, List.append_assoc, ← hu, ← hsplit]
        · exact readAtom_spec hscan

theorem items_succ (h : Sound floats fuel) {text rest : List Char} {vs : List Json}
    (hscan : scanItems floats (fuel + 1) text = some (vs, rest)) :
    ∃ u, text = u ++ rest ∧ Spells floats (.items vs) u := by
  rw [scanItems] at hscan
  split at hscan
  · cases hscan
  · rename_i v rest' hvalue
    obtain ⟨u, rfl, hv⟩ := h.value _ _ _ hvalue
    obtain ⟨w, hw, hsplit⟩ := skipWs_split rest'
    split at hscan
    · cases hscan
    · rename_i c behind hskip
      rw [hskip] at hsplit
      split at hscan
      · -- the closing bracket
        rename_i hc
        cases hscan
        refine ⟨u ++ (w ++ [']']), ?_, .lastItem hv hw⟩
        rw [hsplit, hc]
        simp
      · split at hscan
        · -- a comma, and the items behind it
          rename_i hc
          rw [Option.map_eq_some_iff] at hscan
          obtain ⟨⟨vs', rest''⟩, hitems, hpair⟩ := hscan
          cases hpair
          obtain ⟨w', hw', hsplit'⟩ := skipWs_split behind
          obtain ⟨u', hu', hvs⟩ := h.items _ _ _ hitems
          rw [hu'] at hsplit'
          refine ⟨u ++ (w ++ ',' :: (w' ++ u')), ?_, .item hv hw hw' hvs⟩
          rw [hsplit, hc, hsplit']
          simp
        · cases hscan

theorem members_succ (h : Sound floats fuel) {text rest : List Char}
    {ms : List (List Char × Json)} (hscan : scanMembers floats (fuel + 1) text = some (ms, rest)) :
    ∃ u, text = u ++ rest ∧ Spells floats (.members ms) u := by
  rw [scanMembers] at hscan
  split at hscan
  · rename_i hquote
    rw [eq_cons_of_head hquote]
    split at hscan
    · cases hscan
    · rename_i k afterKey hkey
      obtain ⟨body, hbody, hk⟩ := scanString_spec hkey
      obtain ⟨w₁, hw₁, hsplit₁⟩ := skipWs_split afterKey
      split at hscan
      · rename_i hcolon
        rw [eq_cons_of_head hcolon] at hsplit₁
        obtain ⟨w₂, hw₂, hsplit₂⟩ := skipWs_split (skipWs afterKey).tail
        split at hscan
        · cases hscan
        · rename_i v afterValue hvalue
          obtain ⟨u, hu, hv⟩ := h.value _ _ _ hvalue
          obtain ⟨w₃, hw₃, hsplit₃⟩ := skipWs_split afterValue
          split at hscan
          · cases hscan
          · rename_i c behind hskip
            rw [hskip] at hsplit₃
            split at hscan
            · -- the closing brace
              rename_i hc
              cases hscan
              refine ⟨_, ?_, .lastMember hk hw₁ hw₂ hv hw₃⟩
              rw [hbody, hsplit₁, hsplit₂, hu, hsplit₃, hc]
              simp
            · split at hscan
              · -- a comma, and the members behind it
                rename_i hc
                rw [Option.map_eq_some_iff] at hscan
                obtain ⟨⟨ms', rest'⟩, hmembers, hpair⟩ := hscan
                cases hpair
                obtain ⟨w₄, hw₄, hsplit₄⟩ := skipWs_split behind
                obtain ⟨u', hu', hms⟩ := h.members _ _ _ hmembers
                refine ⟨_, ?_, .member hk hw₁ hw₂ hv hw₃ hw₄ hms⟩
                rw [hbody, hsplit₁, hsplit₂, hu, hsplit₃, hc, hsplit₄, hu']
                simp
              · cases hscan
      · cases hscan
  · cases hscan

end Sound

theorem sound (floats : FloatReader) (fuel : Nat) : Sound floats fuel := by
  induction fuel with
  | zero =>
    constructor
    · intro text v rest h
      cases text <;> cases h
    · intro text vs rest h
      cases h
    · intro text ms rest h
      cases h
  | succ fuel ih => exact ⟨fun _ _ _ => ih.value_succ, fun _ _ _ => ih.items_succ,
      fun _ _ _ => ih.members_succ⟩

/-- Nothing of the grammar begins with white space or a closing bracket. -/
theorem Spells.head {floats : FloatReader} {p : Part} {text : List Char}
    (h : Spells floats p text) : ∃ c rest, text = c :: rest ∧ isWs c = false ∧ c ≠ ']' ∧ c ≠ '}' := by
  induction h with
  | literal h =>
    simp only [literals, List.mem_cons, Prod.mk.injEq, List.not_mem_nil, or_false] at h
    rcases h with ⟨rfl, rfl⟩ | ⟨rfl, rfl⟩ | ⟨rfl, rfl⟩ | ⟨rfl, rfl⟩ | ⟨rfl, rfl⟩ | ⟨rfl, rfl⟩ <;>
      exact ⟨_, _, rfl, by decide⟩
  | number p =>
    obtain ⟨d, ds, hwhole, hd⟩ := p.whole_cons
    unfold NumberText.text
    rcases p.signed with h | h
    · refine ⟨d, ds ++ (p.frac ++ p.exp), by rw [h, hwhole]; rfl, ?_, ?_, ?_⟩
      · unfold isWs
        simp only [Bool.or_eq_false_iff, beq_eq_false_iff_ne]
        refine ⟨⟨⟨?_, ?_⟩, ?_⟩, ?_⟩ <;> rintro rfl <;> exact absurd hd (by decide)
      · rintro rfl
        exact absurd hd (by decide)
      · rintro rfl
        exact absurd hd (by decide)
    · exact ⟨'-', p.whole ++ (p.frac ++ p.exp), by rw [h]; rfl, by decide, by decide, by decide⟩
  | string => exact ⟨_, _, rfl, by decide⟩
  | emptyArray => exact ⟨_, _, rfl, by decide⟩
  | array => exact ⟨_, _, rfl, by decide⟩
  | emptyObject => exact ⟨_, _, rfl, by decide⟩
  | object => exact ⟨_, _, rfl, by decide⟩
  | lastItem _ _ ih =>
    obtain ⟨c, rest, rfl, hc⟩ := ih
    exact ⟨c, _, rfl, hc⟩
  | item _ _ _ _ ih =>
    obtain ⟨c, rest, rfl, hc⟩ := ih
    exact ⟨c, _, rfl, hc⟩
  | lastMember => exact ⟨_, _, rfl, by decide⟩
  | member => exact ⟨_, _, rfl, by decide⟩

theorem isNumberChar_of_isWs {c : Char} (h : isWs c = true) : isNumberChar c = false := by
  unfold isWs at h
  simp only [Bool.or_eq_true, beq_iff_eq] at h
  rcases h with ((rfl | rfl) | rfl) | rfl <;> decide

theorem stops_of_blank {w : List Char} (hw : Blank w) : Stops w :=
  fun c hc => isNumberChar_of_isWs (hw c (List.mem_of_mem_head? hc))

theorem stops_blank {w rest : List Char} {c : Char} (hw : Blank w) (hc : isNumberChar c = false) :
    Stops (w ++ c :: rest) := by
  intro d hd
  cases w with
  | nil =>
    cases hd
    exact hc
  | cons e w => exact stops_of_blank hw d hd

/-- What the reader makes of a text of the grammar that more stands behind. -/
def Part.Reads (floats : FloatReader) : Part → List Char → Prop
  | .value v, text => ∀ fuel rest, text.length < fuel → Stops rest →
      scanOnce floats fuel (text ++ rest) = some (v, rest)
  | .items vs, text => ∀ fuel rest, text.length < fuel →
      scanItems floats fuel (text ++ rest) = some (vs, rest)
  | .members ms, text => ∀ fuel rest, text.length < fuel →
      scanMembers floats fuel (text ++ rest) = some (ms, rest)

theorem isWs_head {floats : FloatReader} {p : Part} {text rest : List Char}
    (h : Spells floats p text) : ∀ c ∈ (text ++ rest).head?, isWs c = false := by
  obtain ⟨d, text', rfl, hd, -, -⟩ := h.head
  intro c hc
  cases hc
  exact hd

theorem skipWs_before {w rest : List Char} {c : Char} (hw : Blank w) (hc : isWs c = false) :
    skipWs (w ++ c :: rest) = c :: rest := by
  refine skipWs_append hw ?_
  intro d hd
  cases hd
  exact hc

/-- **The reader reads what the grammar has.** -/
theorem Spells.reads {floats : FloatReader} {p : Part} {text : List Char}
    (h : Spells floats p text) : p.Reads floats text := by
  induction h with
  | literal h =>
    intro fuel rest hfuel hrest
    -- no word begins like a string, an array or an object
    have hread := @readAtom_literal floats _ _ h rest
    obtain ⟨fuel, rfl⟩ := Nat.exists_eq_add_one_of_ne_zero (Nat.ne_zero_of_lt hfuel)
    simp only [literals, List.mem_cons, Prod.mk.injEq, List.not_mem_nil, or_false] at h
    rcases h with ⟨rfl, rfl⟩ | ⟨rfl, rfl⟩ | ⟨rfl, rfl⟩ | ⟨rfl, rfl⟩ | ⟨rfl, rfl⟩ | ⟨rfl, rfl⟩ <;>
      exact hread
  | number p =>
    intro fuel rest hfuel hrest
    -- a number begins with a digit or a sign, so it is left to `readAtom`
    have hread := p.reads_atom floats hrest
    obtain ⟨d, ds, hwhole, hd⟩ := p.whole_cons
    have hne : ∀ c : Char, c.isDigit = false → d ≠ c := by
      rintro c hc rfl
      rw [hd] at hc
      cases hc
    obtain ⟨fuel, rfl⟩ := Nat.exists_eq_add_one_of_ne_zero (Nat.ne_zero_of_lt hfuel)
    unfold NumberText.text at hread ⊢
    rcases p.signed with h | h
    · rw [h, hwhole] at hread ⊢
      simp only [List.nil_append, List.cons_append] at hread ⊢
      rw [scanOnce, if_neg (hne _ (by decide)), if_neg (hne _ (by decide)),
        if_neg (hne _ (by decide))]
      exact hread
    · rw [h] at hread ⊢
      exact hread
  | string h =>
    intro fuel rest hfuel hrest
    simp only [List.length_cons, List.length_append, List.length_nil] at hfuel
    obtain ⟨fuel, rfl⟩ := Nat.exists_eq_add_one_of_ne_zero (Nat.ne_zero_of_lt hfuel)
    rw [List.cons_append, scanOnce, if_pos rfl, List.append_assoc, List.singleton_append,
      h.scan rest (by omega)]
    rfl
  | emptyArray hw =>
    intro fuel rest hfuel hrest
    obtain ⟨fuel, rfl⟩ := Nat.exists_eq_add_one_of_ne_zero (Nat.ne_zero_of_lt hfuel)
    rw [List.cons_append, List.append_assoc, List.singleton_append, scanOnce, if_neg (by decide),
      if_pos rfl, skipWs_before hw (by decide)]
    rfl
  | @array w text vs hw h ih =>
    intro fuel rest hfuel hrest
    simp only [List.length_cons, List.length_append] at hfuel
    -- items do not begin with the bracket that would make the array empty
    obtain ⟨c, text', hcons, -, hclose, -⟩ := h.head
    have hhead : (text ++ rest).head? ≠ some ']' := by
      rw [hcons]
      simpa using hclose
    obtain ⟨fuel, rfl⟩ := Nat.exists_eq_add_one_of_ne_zero (Nat.ne_zero_of_lt hfuel)
    rw [List.cons_append, List.append_assoc, scanOnce, if_neg (by decide), if_pos rfl,
      skipWs_append hw (isWs_head h), if_neg hhead, ih fuel rest (by omega)]
    rfl
  | emptyObject hw =>
    intro fuel rest hfuel hrest
    obtain ⟨fuel, rfl⟩ := Nat.exists_eq_add_one_of_ne_zero (Nat.ne_zero_of_lt hfuel)
    rw [List.cons_append, List.append_assoc, List.singleton_append, scanOnce, if_neg (by decide),
      if_neg (by decide), if_pos rfl, skipWs_before hw (by decide)]
    rfl
  | @object w text ms hw h ih =>
    intro fuel rest hfuel hrest
    simp only [List.length_cons, List.length_append] at hfuel
    -- nor members with the brace
    obtain ⟨c, text', hcons, -, -, hclose⟩ := h.head
    have hhead : (text ++ rest).head? ≠ some '}' := by
      rw [hcons]
      simpa using hclose
    obtain ⟨fuel, rfl⟩ := Nat.exists_eq_add_one_of_ne_zero (Nat.ne_zero_of_lt hfuel)
    rw [List.cons_append, List.append_assoc, scanOnce, if_neg (by decide), if_neg (by decide),
      if_pos rfl, skipWs_append hw (isWs_head h), if_neg hhead, ih fuel rest (by omega)]
    rfl
  | @lastItem v text w h hw ih =>
    intro fuel rest hfuel
    simp only [List.length_cons, List.length_append] at hfuel
    obtain ⟨fuel, rfl⟩ := Nat.exists_eq_add_one_of_ne_zero (Nat.ne_zero_of_lt hfuel)
    rw [List.append_assoc, List.append_assoc, List.singleton_append, scanItems,
      ih fuel _ (by omega) (stops_blank hw (by decide))]
    dsimp only
    rw [skipWs_before hw (by decide)]
    rfl
  | @item v vs text w w' more h hw hw' hs ih ihs =>
    intro fuel rest hfuel
    simp only [List.length_cons, List.length_append] at hfuel
    obtain ⟨fuel, rfl⟩ := Nat.exists_eq_add_one_of_ne_zero (Nat.ne_zero_of_lt hfuel)
    rw [List.append_assoc, List.append_assoc, List.cons_append, List.append_assoc, scanItems,
      ih fuel _ (by omega) (stops_blank hw (by decide))]
    dsimp only
    rw [skipWs_before hw (by decide)]
    dsimp only
    rw [if_neg (by decide), if_pos rfl, skipWs_append hw' (isWs_head hs),
      ihs fuel rest (by omega)]
    rfl
  | @lastMember k body v text w w' w₃ hk hw hw' h hw₃ ih =>
    intro fuel rest hfuel
    simp only [List.length_cons, List.length_append] at hfuel
    obtain ⟨fuel, rfl⟩ := Nat.exists_eq_add_one_of_ne_zero (Nat.ne_zero_of_lt hfuel)
    simp only [List.cons_append, List.append_assoc, List.nil_append]
    rw [scanMembers, List.head?_cons, if_pos rfl, List.tail_cons, hk.scan _ (by omega)]
    dsimp only
    rw [skipWs_before hw (by decide), List.head?_cons, if_pos rfl, List.tail_cons,
      skipWs_append hw' (isWs_head h), ih fuel _ (by omega) (stops_blank hw₃ (by decide))]
    dsimp only
    rw [skipWs_before hw₃ (by decide)]
    rfl
  | @member k body v ms text w w' w₃ w₄ more hk hw hw' h hw₃ hw₄ hs ih ihs =>
    intro fuel rest hfuel
    simp only [List.length_cons, List.length_append] at hfuel
    obtain ⟨fuel, rfl⟩ := Nat.exists_eq_add_one_of_ne_zero (Nat.ne_zero_of_lt hfuel)
    simp only [List.cons_append, List.append_assoc]
    rw [scanMembers, List.head?_cons, if_pos rfl, List.tail_cons, hk.scan _ (by omega)]
    dsimp only
    rw [skipWs_before hw (by decide), List.head?_cons, if_pos rfl, List.tail_cons,
      skipWs_append hw' (isWs_head h), ih fuel _ (by omega) (stops_blank hw₃ (by decide))]
    dsimp only
    rw [skipWs_before hw₃ (by decide)]
    dsimp only
    rw [if_neg (by decide), if_pos rfl, skipWs_append hw₄ (isWs_head hs),
      ihs fuel rest (by omega)]
    rfl

/-- **What is read is what the grammar has**, between white space. -/
theorem loads_iff {floats : FloatReader} {text : List Char} {v : Json} :
    loads floats text = some v ↔ ∃ w u w', Blank w ∧ Blank w' ∧ text = w ++ (u ++ w') ∧
      Spells floats (.value v) u := by
  constructor
  · intro h
    unfold loads at h
    split at h
    · cases h
    · rename_i v' rest hscan
      split at h
      · rename_i hend
        cases h
        obtain ⟨w, hw, hsplit⟩ := skipWs_split text
        obtain ⟨w', hw', hsplit'⟩ := skipWs_split rest
        obtain ⟨u, hu, hspells⟩ := (sound floats _).value _ _ _ hscan
        rw [hend, List.append_nil] at hsplit'
        exact ⟨w, u, rest, hw, hsplit' ▸ hw', hu ▸ hsplit, hspells⟩
      · cases h
  · rintro ⟨w, u, w', hw, hw', rfl, hspells⟩
    have hread : scanOnce floats ((w ++ (u ++ w')).length + 1) (u ++ w') = some (v, w') := by
      refine hspells.reads _ _ ?_ (stops_of_blank hw')
      simp only [List.length_append]
      omega
    have hend : skipWs w' = [] := List.dropWhile_eq_nil_iff.mpr hw'
    unfold loads
    rw [skipWs_append hw (isWs_head hspells), hread]
    dsimp only
    rw [if_pos hend]

/-! ## What is written is read -/

theorem blank_nil : Blank [] := fun _ h => absurd h List.not_mem_nil

/-- A text of the grammar is read whole. -/
theorem loads_of_spells {floats : FloatReader} {v : Json} {u : List Char}
    (h : Spells floats (.value v) u) : loads floats u = some v :=
  loads_iff.mpr ⟨[], u, [], blank_nil, blank_nil, by rw [List.append_nil, List.nil_append], h⟩

theorem blank_space : Blank [' '] := by
  intro c hc
  rw [List.mem_singleton.mp hc]
  rfl

theorem charText_escape (c : Char) : CharText c (escapeChar c) := by
  have hnat : ∀ {n : Nat}, (c.toNat == n) = true → c = Char.ofNat n := by
    intro n h
    rw [← beq_iff_eq.mp h, Char.ofNat_toNat]
  have hex : ∀ n < 32,
      readHex4 ['0', '0', hexDigit (n / 16), hexDigit (n % 16)] = some (n, []) := by
    decide
  -- a control character is no half of a pair
  have hplain : ∀ n < 32, isHighSurrogate n = false ∧ isLowSurrogate n = false := by decide
  unfold escapeChar
  split
  · rename_i h
    rw [beq_iff_eq.mp h]
    exact .short rfl
  · rename_i hquote
    split
    · rename_i h
      rw [beq_iff_eq.mp h]
      exact .short rfl
    · rename_i hslash
      split
      · rename_i h
        rw [beq_iff_eq.mp h]
        exact .short rfl
      · split
        · rename_i h
          rw [beq_iff_eq.mp h]
          exact .short rfl
        · split
          · rename_i h
            rw [beq_iff_eq.mp h]
            exact .short rfl
          · split
            · rename_i h
              rw [hnat h]
              exact .short rfl
            · split
              · rename_i h
                rw [hnat h]
                exact .short rfl
              · split
                · -- what has no short escape of its own
                  rename_i h
                  have htext := CharText.unicode (hex _ h) (hplain _ h).1 (hplain _ h).2
                  rwa [Char.ofNat_toNat] at htext
                · rename_i hcontrol
                  exact .plain hcontrol (by simpa using hquote) (by simpa using hslash)

theorem bodyText_escape (s : List Char) : BodyText s (escape s) := by
  induction s with
  | nil => exact .nil
  | cons c s ih => exact .cons (charText_escape c) ih

theorem toDigits_head {n : Nat} (h : 0 < n) : (Nat.toDigits 10 n).head? ≠ some '0' := by
  induction n using Nat.strongRecOn with
  | ind n ih =>
    by_cases hlt : n < 10
    · have hdigit : ∀ k < 10, 0 < k → Nat.digitChar k ≠ '0' := by decide
      rw [Nat.toDigits_of_lt_base hlt]
      simpa using hdigit n hlt h
    · -- the leading digit is that of a tenth of the number
      rw [Nat.toDigits_of_base_le (by decide) (by omega), List.head?_append_of_ne_nil _
        Nat.toDigits_ne_nil]
      exact ih (n / 10) (by omega) (by omega)

theorem toDigits_whole (n : Nat) : Nat.toDigits 10 n = ['0'] ∨
    IsDigits (Nat.toDigits 10 n) ∧ (Nat.toDigits 10 n).head? ≠ some '0' := by
  rcases Nat.eq_zero_or_pos n with rfl | h
  · exact Or.inl rfl
  · exact Or.inr ⟨⟨Nat.toDigits_ne_nil, fun _ hc =>
      Nat.isDigit_of_mem_toDigits (by decide) (by decide) hc⟩, toDigits_head h⟩

theorem spells_int (floats : FloatReader) (i : Int) :
    Spells floats (.value (.int i)) (intText i) := by
  cases i with
  | ofNat n =>
    have h := @Spells.number floats
      ⟨[], Nat.toDigits 10 n, [], [], Or.inl rfl, toDigits_whole n, Or.inl rfl, Or.inl rfl⟩
    simp only [NumberText.value, NumberText.text, intOf, Nat.ofDigitChars_ten_toDigits,
      and_self, if_true, List.append_nil, List.nil_append] at h
    exact h
  | negSucc n =>
    have h := @Spells.number floats
      ⟨['-'], Nat.toDigits 10 (n + 1), [], [], Or.inr rfl, toDigits_whole (n + 1), Or.inl rfl,
        Or.inl rfl⟩
    simp only [NumberText.value, NumberText.text, intOf, Nat.ofDigitChars_ten_toDigits,
      and_self, if_true, List.append_nil, List.cons_ne_nil, if_false, List.singleton_append] at h
    exact h

theorem whole_of_isDecimal {text : List Char} (h : isDecimal text = true) :
    text = ['0'] ∨ IsDigits text ∧ text.head? ≠ some '0' := by
  unfold isDecimal at h
  split at h
  · cases h
  · exact Or.inl rfl
  · rename_i c cs _
    simp only [Bool.and_eq_true, bne_iff_ne, List.all_eq_true] at h
    exact Or.inr ⟨⟨List.cons_ne_nil _ _, h.2⟩, by simpa using h.1⟩

theorem exp_of_isExponent {text : List Char} (h : isExponent text = true) :
    ∃ s ds, (s = [] ∨ s = ['+'] ∨ s = ['-']) ∧ IsDigits ds ∧ text = s ++ ds := by
  unfold isExponent at h
  split at h <;> simp only [Bool.and_eq_true, decide_eq_true_eq, List.all_eq_true] at h
  · exact ⟨['+'], _, Or.inr (Or.inl rfl), h, rfl⟩
  · exact ⟨['-'], _, Or.inr (Or.inr rfl), h, rfl⟩
  · exact ⟨[], _, Or.inl rfl, h, rfl⟩

theorem number_of_isFraction {sign text : List Char} (hsign : sign = [] ∨ sign = ['-'])
    (h : isFraction text = true) :
    ∃ p : NumberText, p.text = sign ++ text ∧ ¬(p.frac = [] ∧ p.exp = []) := by
  unfold isFraction at h
  have hsplit := (List.takeWhile_append_dropWhile (p := Char.isDigit) (l := text)).symm
  simp only at h
  split at h
  · rename_i rest hdrop
    simp only [Bool.and_eq_true, decide_eq_true_eq] at h
    obtain ⟨⟨hwhole, hfrac⟩, hexp⟩ := h
    have hsplit' := (List.takeWhile_append_dropWhile (p := Char.isDigit) (l := rest)).symm
    rw [hdrop, hsplit'] at hsplit
    split at hexp
    · -- digits behind the point, and no exponent
      rename_i hnil
      refine ⟨⟨sign, _, _, [], hsign, whole_of_isDecimal hwhole,
        Or.inr ⟨_, takeWhile_digits hfrac, rfl⟩, Or.inl rfl⟩, ?_, fun hnot => ?_⟩
      · rw [hnil] at hsplit
        exact congrArg (sign ++ ·) hsplit.symm
      · exact List.cons_ne_nil _ _ hnot.1
    · -- both
      rename_i e more hcons
      simp only [Bool.and_eq_true, Bool.or_eq_true, beq_iff_eq] at hexp
      obtain ⟨s, ds, hs, hds, rfl⟩ := exp_of_isExponent hexp.2
      refine ⟨⟨sign, _, _, _, hsign, whole_of_isDecimal hwhole,
        Or.inr ⟨_, takeWhile_digits hfrac, rfl⟩, Or.inr ⟨e, s, ds, hexp.1, hs, hds, rfl⟩⟩, ?_,
        fun hnot => ?_⟩
      · rw [hcons] at hsplit
        exact congrArg (sign ++ ·) hsplit.symm
      · exact List.cons_ne_nil _ _ hnot.1
  · -- an exponent alone
    rename_i e more hne hdrop
    simp only [Bool.and_eq_true, Bool.or_eq_true, beq_iff_eq] at h
    obtain ⟨s, ds, hs, hds, rfl⟩ := exp_of_isExponent h.2
    rw [hdrop] at hsplit
    refine ⟨⟨sign, _, [], _, hsign, whole_of_isDecimal h.1.1, Or.inl rfl,
      Or.inr ⟨e, s, ds, h.1.2, hs, hds, rfl⟩⟩, ?_, fun hnot => ?_⟩
    · exact congrArg (sign ++ ·) hsplit.symm
    · exact List.cons_ne_nil _ _ hnot.2
  · cases h

theorem spells_fraction {floats : FloatReader} {f : FloatText} {sign text : List Char}
    (hcanon : floats.read f.text = f) (hsign : sign = [] ∨ sign = ['-'])
    (htext : f.text = sign ++ text) (h : isFraction text = true) :
    Spells floats (.value (.float f)) f.text := by
  obtain ⟨p, hp, hfloat⟩ := number_of_isFraction hsign h
  have hspells := @Spells.number floats p
  rwa [NumberText.value, if_neg hfloat, hp, ← htext, hcanon] at hspells

theorem spells_float {floats : FloatReader} {f : FloatText} (hcanon : floats.read f.text = f) :
    Spells floats (.value (.float f)) f.text := by
  obtain ⟨text, hfloat⟩ := f
  have h := hfloat
  unfold isFloatText at h
  split at h
  · -- the sign comes off, then it is `-Infinity` or a number
    rename_i cs
    simp only [Bool.or_eq_true, beq_iff_eq] at h
    rcases h with rfl | h
    · exact .literal (by simp [literals])
    · exact spells_fraction hcanon (Or.inr rfl) rfl h
  · simp only [Bool.or_eq_true, beq_iff_eq] at h
    rcases h with (rfl | rfl) | h
    · exact .literal (by simp [literals])
    · exact .literal (by simp [literals])
    · exact spells_fraction hcanon (Or.inl rfl) rfl h

theorem spells_items {floats : FloatReader} {vs : List Json} (hne : vs ≠ [])
    (h : ∀ v ∈ vs, Spells floats (.value v) (dumps v)) :
    Spells floats (.items vs) (dumpsItems vs ++ [']']) := by
  induction vs with
  | nil => exact absurd rfl hne
  | cons v vs ih =>
    have hv := h v List.mem_cons_self
    cases vs with
    | nil => exact .lastItem hv blank_nil
    | cons v' vs =>
      have hrest := ih (List.cons_ne_nil _ _) fun x hx => h x (List.mem_cons_of_mem v hx)
      have hitem := Spells.item hv blank_nil blank_space hrest
      rw [dumpsItems, List.append_assoc, List.append_assoc]
      exact hitem

theorem spells_members {floats : FloatReader} {ms : List (List Char × Json)} (hne : ms ≠ [])
    (h : ∀ m ∈ ms, Spells floats (.value m.2) (dumps m.2)) :
    Spells floats (.members ms) (dumpsMembers ms ++ ['}']) := by
  induction ms with
  | nil => exact absurd rfl hne
  | cons m ms ih =>
    obtain ⟨k, v⟩ := m
    have hv := h (k, v) List.mem_cons_self
    have hk := bodyText_escape k
    cases ms with
    | nil =>
      have hmember := Spells.lastMember hk blank_nil blank_space hv blank_nil
      rw [dumpsMembers, quote]
      simp only [List.cons_append, List.append_assoc, List.nil_append] at hmember ⊢
      exact hmember
    | cons m' ms =>
      have hrest := ih (List.cons_ne_nil _ _) fun x hx => h x (List.mem_cons_of_mem _ hx)
      have hmember := Spells.member hk blank_nil blank_space hv blank_nil blank_space hrest
      rw [dumpsMembers, quote]
      simp only [List.cons_append, List.append_assoc, List.nil_append] at hmember ⊢
      exact hmember

/-! ## Repeated keys -/

section Dict

variable {ms : List (List Char × Json)} {m x : List Char × Json}

theorem put_eq : put ms m = if m.1 ∈ ms.map Prod.fst then
    ms.map fun m' => if m'.1 = m.1 then m else m' else ms ++ [m] := by
  unfold put
  simp only [List.contains_iff_mem]

theorem mem_put (h : x ∈ put ms m) : x ∈ ms ∨ x = m := by
  rw [put_eq] at h
  split at h
  · obtain ⟨y, hy, hx⟩ := List.mem_map.mp h
    split at hx
    · exact Or.inr hx.symm
    · exact Or.inl (hx ▸ hy)
  · simpa using h

theorem put_ne_nil : put ms m ≠ [] := by
  rw [put_eq]
  split
  · rename_i h
    intro hnil
    rw [List.map_eq_nil_iff] at hnil
    rw [hnil] at h
    cases h
  · exact List.append_ne_nil_of_right_ne_nil _ (List.cons_ne_nil _ _)

theorem put_keys : (put ms m).map Prod.fst =
    if m.1 ∈ ms.map Prod.fst then ms.map Prod.fst else ms.map Prod.fst ++ [m.1] := by
  rw [put_eq]
  split
  · rw [List.map_map]
    refine List.map_congr_left fun x _ => ?_
    show (if x.1 = m.1 then m else x).1 = x.1
    split
    · rename_i h
      exact h.symm
    · rfl
  · simp

theorem nodup_put (h : (ms.map Prod.fst).Nodup) : ((put ms m).map Prod.fst).Nodup := by
  rw [put_keys]
  split
  · exact h
  · rename_i hnew
    rw [List.nodup_append]
    refine ⟨h, by simp, fun a ha b hb => ?_⟩
    rw [List.mem_singleton.mp hb]
    rintro rfl
    exact hnew ha

theorem foldl_put_nodup (ms : List (List Char × Json)) :
    ∀ {acc : List (List Char × Json)}, (acc.map Prod.fst).Nodup →
      ((ms.foldl put acc).map Prod.fst).Nodup := by
  induction ms with
  | nil => exact id
  | cons m ms ih => exact fun h => ih (nodup_put h)

theorem mem_foldl_put (ms : List (List Char × Json)) :
    ∀ {acc : List (List Char × Json)}, x ∈ ms.foldl put acc → x ∈ acc ∨ x ∈ ms := by
  induction ms with
  | nil => exact Or.inl
  | cons m ms ih =>
    intro acc h
    rcases ih h with h | h
    · rcases mem_put h with h | h
      · exact Or.inl h
      · exact Or.inr (h ▸ List.mem_cons_self)
    · exact Or.inr (List.mem_cons_of_mem m h)

theorem foldl_put_ne_nil (ms : List (List Char × Json)) :
    ∀ {acc : List (List Char × Json)}, acc ≠ [] → ms.foldl put acc ≠ [] := by
  induction ms with
  | nil => exact id
  | cons m ms ih => exact fun _ => ih put_ne_nil

theorem foldl_put_of_nodup (ms : List (List Char × Json)) :
    ∀ {acc : List (List Char × Json)}, ((acc ++ ms).map Prod.fst).Nodup →
      ms.foldl put acc = acc ++ ms := by
  induction ms with
  | nil => exact fun _ => (List.append_nil _).symm
  | cons m ms ih =>
    intro acc h
    -- a key that is new is put at the end
    have hnew : m.1 ∉ acc.map Prod.fst := by
      intro hmem
      rw [List.map_append, List.nodup_append] at h
      exact h.2.2 _ hmem _ (List.mem_map_of_mem List.mem_cons_self) rfl
    have hput : put acc m = acc ++ [m] := by rw [put_eq, if_neg hnew]
    rw [List.foldl_cons, hput, ih (by rwa [List.append_assoc, List.singleton_append]),
      List.append_assoc, List.singleton_append]

/-- A dictionary has one value a key. -/
theorem dict_dict (ms : List (List Char × Json)) : dict (dict ms) = dict ms :=
  foldl_put_of_nodup _ (foldl_put_nodup ms List.nodup_nil)

theorem mem_dict (h : x ∈ dict ms) : x ∈ ms := by
  rcases mem_foldl_put ms h with h | h
  · exact absurd h List.not_mem_nil
  · exact h

theorem dict_ne_nil (h : ms ≠ []) : dict ms ≠ [] := by
  cases ms with
  | nil => exact absurd rfl h
  | cons m ms => exact foldl_put_ne_nil ms put_ne_nil

end Dict

/-! ## Writing and reading -/

/-- What is read is written so that it is read again. -/
def Part.Dumps (floats : FloatReader) : Part → Prop
  | .value v => Spells floats (.value v) (dumps v)
  | .items vs => vs ≠ [] ∧ ∀ v ∈ vs, Spells floats (.value v) (dumps v)
  | .members ms => ms ≠ [] ∧ ∀ m ∈ ms, Spells floats (.value m.2) (dumps m.2)

theorem Spells.dumps {floats : FloatReader} {p : Part} {text : List Char}
    (h : Spells floats p text) : p.Dumps floats := by
  induction h with
  | literal h =>
    have hspells := @Spells.literal floats _ _ h
    simp only [literals, List.mem_cons, Prod.mk.injEq, List.not_mem_nil, or_false] at h
    rcases h with ⟨rfl, rfl⟩ | ⟨rfl, rfl⟩ | ⟨rfl, rfl⟩ | ⟨rfl, rfl⟩ | ⟨rfl, rfl⟩ | ⟨rfl, rfl⟩ <;>
      exact hspells
  | number p =>
    -- a float is written as its own text, which reads as itself
    show Spells floats (.value (p.value floats)) (Json.dumps (p.value floats))
    unfold NumberText.value
    split
    · exact spells_int floats _
    · exact spells_float (floats.read_read _)
  | string h => exact .string (bodyText_escape _)
  | emptyArray => exact .emptyArray blank_nil
  | array _ _ ih =>
    have harray := Spells.array blank_nil (spells_items ih.1 ih.2)
    exact harray
  | emptyObject => exact .emptyObject blank_nil
  | @object w text ms _ _ ih =>
    -- the members that are written are those that the last of their key left
    have hmembers := spells_members (dict_ne_nil ih.1) fun m hm => ih.2 m (mem_dict hm)
    have hobject := Spells.object blank_nil hmembers
    rw [dict_dict] at hobject
    exact hobject
  | lastItem _ _ ih =>
    refine ⟨List.cons_ne_nil _ _, fun v hv => ?_⟩
    rw [List.mem_singleton.mp hv]
    exact ih
  | item _ _ _ _ ih ihs =>
    refine ⟨List.cons_ne_nil _ _, fun v hv => ?_⟩
    rcases List.mem_cons.mp hv with rfl | hv
    · exact ih
    · exact ihs.2 v hv
  | lastMember _ _ _ _ _ ih =>
    refine ⟨List.cons_ne_nil _ _, fun m hm => ?_⟩
    rw [List.mem_singleton.mp hm]
    exact ih
  | member _ _ _ _ _ _ _ ih ihs =>
    refine ⟨List.cons_ne_nil _ _, fun m hm => ?_⟩
    rcases List.mem_cons.mp hm with rfl | hm
    · exact ih
    · exact ihs.2 m hm

/-- **A value that was read, written and read again.** -/
theorem loads_dumps {floats : FloatReader} {text : List Char} {v : Json}
    (h : loads floats text = some v) : loads floats (dumps v) = some v := by
  obtain ⟨-, u, -, -, -, -, hspells⟩ := loads_iff.mp h
  exact loads_of_spells hspells.dumps

end FreeToken.Lib.Json
