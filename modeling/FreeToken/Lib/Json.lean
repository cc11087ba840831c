import Mathlib.Data.List.Basic

/-!
# JSON texts

The values of JSON and the text `json.dumps(value, ensure_ascii=False)` writes for
them: strings are escaped one character at a time, so that the escape of a text is
the escape of its pieces (`escape_append`). A float is kept as the text its `repr`
prints.
-/

namespace FreeToken.Lib

/-! ## Values -/

/-- `0` or a run of digits that does not start with it. -/
def isDecimal : List Char → Bool
  | [] => false
  | ['0'] => true
  | c :: cs => c != '0' && (c :: cs).all Char.isDigit

/-- The digits of an exponent, after its sign. -/
def isExponent : List Char → Bool
  | '+' :: cs => cs ≠ [] && cs.all Char.isDigit
  | '-' :: cs => cs ≠ [] && cs.all Char.isDigit
  | cs => cs ≠ [] && cs.all Char.isDigit

/-- A decimal with a fraction, an exponent or both. -/
def isFraction (text : List Char) : Bool :=
  let whole := text.takeWhile Char.isDigit
  match text.dropWhile Char.isDigit with
  | '.' :: rest =>
    let frac := rest.takeWhile Char.isDigit
    isDecimal whole && frac ≠ [] &&
      match rest.dropWhile Char.isDigit with
      | [] => true
      | c :: cs => (c == 'e' || c == 'E') && isExponent cs
  | c :: cs => isDecimal whole && (c == 'e' || c == 'E') && isExponent cs
  | [] => false

/-- The texts of a Python float that `json` writes and reads. -/
def isFloatText : List Char → Bool
  | '-' :: cs => cs == "Infinity".toList || isFraction cs
  | cs => cs == "NaN".toList || cs == "Infinity".toList || isFraction cs

/-- A float, as its `repr`. -/
structure FloatText where
  text : List Char
  isFloat : isFloatText text = true

inductive Json where
  | null
  | bool (b : Bool)
  | int (i : Int)
  | float (f : FloatText)
  | str (s : List Char)
  | array (items : List Json)
  | object (members : List (List Char × Json))

namespace Json

/-! ## Writing -/

def hexDigit (n : Nat) : Char := Nat.digitChar n

/-- One character of a string, as `ESCAPE_DCT` has it. -/
def escapeChar (c : Char) : List Char :=
  if c == '"' then ['\\', '"']
  else if c == '\\' then ['\\', '\\']
  else if c == '\n' then ['\\', 'n']
  else if c == '\r' then ['\\', 'r']
  else if c == '\t' then ['\\', 't']
  else if c.toNat == 8 then ['\\', 'b']
  else if c.toNat == 12 then ['\\', 'f']
  else if c.toNat < 32 then
    ['\\', 'u', '0', '0', hexDigit (c.toNat / 16), hexDigit (c.toNat % 16)]
  else [c]

def escape (text : List Char) : List Char := text.flatMap escapeChar

@[simp] theorem escape_nil : escape [] = [] := rfl

@[simp] theorem escape_append (a b : List Char) : escape (a ++ b) = escape a ++ escape b :=
  List.flatMap_append

def quote (text : List Char) : List Char := '"' :: (escape text ++ ['"'])

def intText (i : Int) : List Char :=
  match i with
  | .ofNat n => Nat.toDigits 10 n
  | .negSucc n => '-' :: Nat.toDigits 10 (n + 1)

mutual

/-- `json.dumps(value, ensure_ascii=False)`. -/
def dumps : Json → List Char
  | null => "null".toList
  | bool true => "true".toList
  | bool false => "false".toList
  | int i => intText i
  | float f => f.text
  | str s => quote s
  | array items => '[' :: (dumpsItems items ++ [']'])
  | object members => '{' :: (dumpsMembers members ++ ['}'])

def dumpsItems : List Json → List Char
  | [] => []
  | [v] => dumps v
  | v :: v' :: vs => dumps v ++ (", ".toList ++ dumpsItems (v' :: vs))

def dumpsMembers : List (List Char × Json) → List Char
  | [] => []
  | [(k, v)] => quote k ++ (": ".toList ++ dumps v)
  | (k, v) :: m :: ms =>
    quote k ++ (": ".toList ++ (dumps v ++ (", ".toList ++ dumpsMembers (m :: ms))))

end

end Json

end FreeToken.Lib
