import Mathlib.Algebra.Ring.Int.Defs
import Mathlib.Algebra.Ring.Nat
import Mathlib.Data.List.Nodup

/-!
# Values of messages, and what is written for them

The Python objects a message may hold (`Value`), the plain objects `msgpack` carries
(`Wire`), and the encoder: a tensor or an object becomes a map with a `__type__` entry,
and a dictionary of a client that uses one of the tags as a key is wrapped.
-/

namespace FreeToken.Message

abbrev Text := List Char

/-! ## Tensors -/

/-- Element types. -/
inductive DType where
  | bool
  | uint8
  | int8
  | int16
  | int32
  | int64
  | uint16
  | uint32
  | uint64
  | float16
  | float32
  | float64
  | complex64
  | complex128
  | bfloat16
deriving DecidableEq

namespace DType

def itemsize : DType → Nat
  | bool | uint8 | int8 => 1
  | int16 | uint16 | float16 | bfloat16 => 2
  | int32 | uint32 | float32 => 4
  | int64 | uint64 | float64 | complex64 => 8
  | complex128 => 16

/-- The name, as torch and numpy have it. -/
def name : DType → Text
  | bool => "bool".toList
  | uint8 => "uint8".toList
  | int8 => "int8".toList
  | int16 => "int16".toList
  | int32 => "int32".toList
  | int64 => "int64".toList
  | uint16 => "uint16".toList
  | uint32 => "uint32".toList
  | uint64 => "uint64".toList
  | float16 => "float16".toList
  | float32 => "float32".toList
  | float64 => "float64".toList
  | complex64 => "complex64".toList
  | complex128 => "complex128".toList
  | bfloat16 => "bfloat16".toList

/-- `str(t.dtype)`. -/
def str (d : DType) : Text := "torch.".toList ++ d.name

/-- The types that numpy has too: all but bfloat16. -/
def numpy : List DType :=
  [bool, uint8, int8, int16, int32, int64, uint16, uint32, uint64, float16, float32, float64,
    complex64, complex128]

theorem itemsize_pos (d : DType) : 0 < d.itemsize := by cases d <;> decide

end DType

/-- The number of elements of a shape. -/
def numel (shape : List Nat) : Nat := shape.foldr (· * ·) 1

/-- A tensor on the CPU: its elements in row-major order, as bytes. -/
structure Tensor where
  dtype : DType
  shape : List Nat
  data : List UInt8
  size : data.length = numel shape * dtype.itemsize
  /-- Sizes are 64-bit integers. -/
  dims : ∀ d ∈ shape, d < 2 ^ 63
  elements : numel shape < 2 ^ 63

/-! ## Objects -/

/-- What a field of a message may hold. -/
inductive Value where
  | none
  | bool (b : Bool)
  | int (i : Int)
  /-- A double, by its bits. -/
  | float (bits : UInt64)
  | str (s : Text)
  | bytes (b : List UInt8)
  | tensor (t : Tensor)
  | list (items : List Value)
  | tuple (items : List Value)
  | dict (entries : List (Text × Value))
  /-- An instance of a class, with its attributes. -/
  | object (cls : Text) (attrs : List (Text × Value))

/-- What `msgpack` carries. -/
inductive Wire where
  | none
  | bool (b : Bool)
  | int (i : Int)
  | float (bits : UInt64)
  | str (s : Text)
  | bytes (b : List UInt8)
  | list (items : List Wire)
  | tuple (items : List Wire)
  | map (entries : List (Text × Wire))

/-! ## Dictionaries -/

section Dict

variable {α : Type}

def hasKey (key : Text) (entries : List (Text × α)) : Bool := entries.any fun e => e.1 == key

def lookup (key : Text) (entries : List (Text × α)) : Option α :=
  (entries.find? fun e => e.1 == key).map Prod.snd

/-- `d[key] = value`. -/
def setItem (entries : List (Text × α)) (key : Text) (value : α) : List (Text × α) :=
  if hasKey key entries then entries.map fun e => if e.1 == key then (key, value) else e
  else entries ++ [(key, value)]

end Dict

/-! ## Encoding -/

/-- `_TYPE_KEY`. -/
def typeKey : Text := "__type__".toList

/-- `_RAW_DICT_KEY`. -/
def rawDictKey : Text := "__raw_dict__".toList

def tensorName : Text := "Tensor".toList

/-- The entries that `serialize_type` writes for a tensor: one of a single dimension omits the
shape. -/
def tensorEntries (t : Tensor) : List (Text × Wire) :=
  let tagged : List (Text × Wire) :=
    [(typeKey, .str tensorName), ("dtype".toList, .str t.dtype.str)]
  let shaped :=
    if t.shape.length ≠ 1 then
      tagged ++ [("shape".toList, .list (t.shape.map fun d : Nat => .int d))]
    else tagged
  shaped ++ [("buffer".toList, .bytes t.data)]

def serializeTensor (t : Tensor) : Wire := .map (tensorEntries t)

/-- `serialize_type` of any other object, its attributes encoded. -/
def serializeObject (cls : Text) (attrs : List (Text × Wire)) : Wire :=
  .map (attrs.foldl (fun d a => setItem d a.1 a.2) [(typeKey, .str cls)])

/-- A dictionary that has one of the tags as a key is wrapped. -/
def wrapDict (encoded : List (Text × Wire)) : Wire :=
  if hasKey typeKey encoded || hasKey rawDictKey encoded then .map [(rawDictKey, .map encoded)]
  else .map encoded

mutual

/-- `_serialize_any`. -/
def serializeAny : Value → Wire
  | .dict entries => wrapDict (serializeEntries entries)
  | .list items => .list (serializeItems items)
  | .tuple items => .tuple (serializeItems items)
  | .none => .none
  | .bool b => .bool b
  | .int i => .int i
  | .float bits => .float bits
  | .str s => .str s
  | .bytes b => .bytes b
  | .tensor t => serializeTensor t
  | .object cls attrs => serializeObject cls (serializeEntries attrs)

def serializeItems : List Value → List Wire
  | [] => []
  | v :: vs => serializeAny v :: serializeItems vs

def serializeEntries : List (Text × Value) → List (Text × Wire)
  | [] => []
  | (k, v) :: es => (k, serializeAny v) :: serializeEntries es

end

/-! ## Transport -/

mutual

/-- An object after `pack` and `unpack`: a tuple arrives as a list. -/
def Wire.arrived : Wire → Wire
  | .list items => .list (arrivedItems items)
  | .tuple items => .list (arrivedItems items)
  | .map entries => .map (arrivedEntries entries)
  | .none => .none
  | .bool b => .bool b
  | .int i => .int i
  | .float bits => .float bits
  | .str s => .str s
  | .bytes b => .bytes b

def arrivedItems : List Wire → List Wire
  | [] => []
  | w :: ws => w.arrived :: arrivedItems ws

def arrivedEntries : List (Text × Wire) → List (Text × Wire)
  | [] => []
  | (k, w) :: es => (k, w.arrived) :: arrivedEntries es

end

mutual

/-- Tuples as lists. -/
def Value.listed : Value → Value
  | .list items => .list (listedItems items)
  | .tuple items => .list (listedItems items)
  | .dict entries => .dict (listedEntries entries)
  | .object cls attrs => .object cls (listedEntries attrs)
  | .none => .none
  | .bool b => .bool b
  | .int i => .int i
  | .float bits => .float bits
  | .str s => .str s
  | .bytes b => .bytes b
  | .tensor t => .tensor t

def listedItems : List Value → List Value
  | [] => []
  | v :: vs => v.listed :: listedItems vs

def listedEntries : List (Text × Value) → List (Text × Value)
  | [] => []
  | (k, v) :: es => (k, v.listed) :: listedEntries es

end

mutual

/-- The integers fit into 64 bits, as `msgpack` needs them. -/
def Wire.packable : Wire → Bool
  | .int i => decide (-2 ^ 63 ≤ i ∧ i < 2 ^ 64)
  | .list items => packableItems items
  | .tuple items => packableItems items
  | .map entries => packableEntries entries
  | _ => true

def packableItems : List Wire → Bool
  | [] => true
  | w :: ws => w.packable && packableItems ws

def packableEntries : List (Text × Wire) → Bool
  | [] => true
  | (_, w) :: es => w.packable && packableEntries es

end

/-- `msgpack`, which carries its own types over. -/
structure MsgPack (P : Type) where
  packb : Wire → Option P
  unpackb : P → Option Wire
  carries : ∀ w, w.packable = true → ∃ p, packb w = some p ∧ unpackb p = some w.arrived

end FreeToken.Message
