import FreeToken.Lib.Json
import FreeToken.Server.Types
import Mathlib.Algebra.FreeMonoid.Basic
import Mathlib.Algebra.Order.Monoid.Unbundled.WithTop

/-!
# Tools, their schemas and what the parsers return

The tool list of a request, the conversion of a parameter's text by its schema type
(`_convert_param_value`, `_schema_param_type`), and the pieces a tool-call parser
returns. `Env` has what the parsers take from Python's built-in functions and from
the environment.
-/

namespace FreeToken.Server

open FreeToken.Lib

/-! ## The environment -/

/-- What `float(text)` returns: whole floats are the ones that equal an integer. -/
inductive PyFloat where
  | whole (i : Int)
  | fraction (f : FloatText)
  | inf
  | nan

/-- Python's own functions, and the setting read at import. -/
structure Env where
  lower : Text → Text
  /-- `str(value)` of a value that is no string. -/
  str : Json → Text
  /-- `int(text)`, none for a `ValueError`. -/
  int : Text → Option Int
  float : Text → Option PyFloat
  /-- `json.loads`, none for a `ValueError`. -/
  loads : Text → Option Json
  /-- `ast.literal_eval`, none for an error the caller catches; the value as
  `json.dumps` sees it, none inside when it cannot write that. -/
  literalEval : Text → Option (Option Json)
  forwardUnknownTools : Bool

/-! ## Tools -/

structure Tool where
  name : Text
  parameters : Option (List (Text × Json)) := none

/-- `func_name in self._get_tool_indices(tools)`. -/
def inToolIndices (tools : List Tool) (name : Text) : Bool :=
  name != [] && tools.any fun tool => tool.name == name

def shouldForwardUnknownTool (env : Env) (name : Text) : Bool :=
  env.forwardUnknownTools || name.contains ':'

/-- The value of a key of a dict. -/
def member (members : List (Text × Json)) (key : Text) : Option Json :=
  (members.find? fun m => m.1 == key).map Prod.snd

/-- Extract the parameter properties (JSON schema) for one tool. -/
def getParamConfig (name : Text) : List Tool → Json
  | [] => .object []
  | tool :: tools =>
    match tool.parameters with
    | some (m :: ms) =>
      if tool.name == name then (member (m :: ms) "properties".toList).getD (.object (m :: ms))
      else getParamConfig name tools
    | _ => getParamConfig name tools

/-- `key in config`, none for a `TypeError`. -/
def configHas : Json → Text → Option Bool
  | .object ms, key => some (ms.any fun m => m.1 == key)
  | .array items, key => some (items.any fun | .str s => s == key | _ => false)
  | .str s, key => some (contains key s)
  | _, _ => none

/-- `config.get(key, {})`, none for an `AttributeError`. -/
def configGet : Json → Text → Option Json
  | .object ms, key => some ((member ms key).getD (.object []))
  | _, _ => none

/-- `str(prop.get("type", "string")).strip().lower()`, `"string"` when `prop` is no dict. -/
def propType (env : Env) : Json → Text
  | .object ms =>
    match member ms "type".toList with
    | none => env.lower "string".toList
    | some (.str s) => env.lower (strip s)
    | some v => env.lower (strip (env.str v))
  | _ => "string".toList

/-- Normalized schema type for a parameter; `missing` when undeclared. -/
def schemaParamType (env : Env) (name : Text) (config : Json) (missing : Text) : Option Text :=
  match configHas config name with
  | none => none
  | some false => some missing
  | some true => (configGet config name).map (propType env)

def isStringType (type : Text) : Bool :=
  type == "string".toList || type == "str".toList || type == "enum".toList

/-- `int(fv) if fv == int(fv) else fv`, none for the `OverflowError` of an infinity. -/
def convertNumber (env : Env) (value : Text) : Option Json :=
  match env.float value with
  | none => some (.str value)
  | some (.whole i) => some (.int i)
  | some (.fraction f) => some (.float f)
  | some .nan => some (.str value)
  | some .inf => none

/-- The conversion by a schema type. -/
def convertTyped (env : Env) (value type : Text) : Option Json :=
  if isStringType type then some (.str value)
  else if "int".toList.isPrefixOf type then
    some (((env.int value).map Json.int).getD (.str value))
  else if type == "number".toList || type == "float".toList || type == "double".toList then
    convertNumber env value
  else if type == "boolean".toList || type == "bool".toList then
    some (.bool (env.lower value == "true".toList))
  else if type == "object".toList || type == "array".toList then
    match env.loads value with
    | some v => some v
    | none => (env.literalEval value).getD (some (.str value))
  else some (.str value)

/-- Convert parameter value based on schema type: none when this, or writing the
result with `json.dumps`, raises. -/
def convertParamValue (env : Env) (value name : Text) (config : Json) : Option Json :=
  if env.lower value == "null".toList then some .null
  else
    match configHas config name with
    | none => none
    | some false => some (.str value)
    | some true => (configGet config name).bind fun prop => convertTyped env value (propType env prop)

def parseLooseJsonValue (env : Env) (value : Text) : Json :=
  match env.loads value with
  | some v => v
  | none =>
    if env.lower value == "true".toList then .bool true
    else if env.lower value == "false".toList then .bool false
    else if env.lower value == "null".toList then .null
    else .str value

/-! ## What a parser returns -/

/-- One call's name, or a fragment of its arguments. -/
structure ToolCallItem where
  toolIndex : Int
  name : Option Text := none
  parameters : Text := []
deriving DecidableEq

structure StreamingParseResult where
  normalText : Text := []
  calls : List ToolCallItem := []
deriving DecidableEq

/-- One `normal_parts.append` or `calls.append`. -/
inductive Part where
  | text (t : Text)
  | call (item : ToolCallItem)
deriving DecidableEq

/-- What reaches the client, a character at a time. -/
inductive Event where
  | text (c : Char)
  | name (toolIndex : Int) (n : Text)
  | argument (toolIndex : Int) (c : Char)
deriving DecidableEq

/-- What some code puts out, in order; `⊤` when it raises. -/
abbrev Out (α : Type) := WithTop (FreeAddMonoid α)

namespace Out

variable {α β : Type}

def ofList (l : List α) : Out α := ((FreeAddMonoid.ofList l : FreeAddMonoid α) : Out α)

@[simp] theorem ofList_nil : (ofList [] : Out α) = 0 := rfl

theorem ofList_append (a b : List α) : ofList (a ++ b) = ofList a + ofList b := by
  rw [ofList, ofList, ofList, ← WithTop.coe_add]
  rfl

theorem ofList_injective {a b : List α} (h : ofList a = ofList b) : a = b := by
  have := WithTop.coe_injective h
  exact this

/-- The same output with each piece cut further by `f`. -/
def flatMap (f : α → List β) : Out α →+ Out β :=
  AddMonoidHom.withTopMap (FreeAddMonoid.lift fun a => FreeAddMonoid.ofList (f a))

@[simp] theorem flatMap_ofList (f : α → List β) (l : List α) :
    flatMap f (ofList l) = ofList (l.flatMap f) := by
  induction l with
  | nil => rfl
  | cons a l ih =>
    rw [show a :: l = [a] ++ l from rfl, ofList_append, map_add, ih, List.flatMap_append,
      ofList_append]
    congr 1
    simp [flatMap, ofList]

@[simp] theorem flatMap_top (f : α → List β) : flatMap f (⊤ : Out α) = ⊤ := rfl

end Out

/-- The characters of one call item. -/
def ToolCallItem.events (item : ToolCallItem) : List Event :=
  (match item.name with | some n => [.name item.toolIndex n] | none => []) ++
    item.parameters.map (.argument item.toolIndex)

def Part.events : Part → List Event
  | .text t => t.map .text
  | .call item => item.events

end FreeToken.Server
