import FreeToken.Message.Values

/-!
# Decoding of messages

`deserializeAny` and `deserializeType` over the objects `msgpack` gives back, with the
classes a module's globals name, and every error they can raise.
-/

namespace FreeToken.Message

/-! ## Classes -/

/-- A dataclass: its fields with their defaults. -/
structure DataClass where
  name : Text
  fields : List (Text × Option Value)
  names_nodup : (fields.map Prod.fst).Nodup
  /-- No field is called like the tag. -/
  untagged : typeKey ∉ fields.map Prod.fst

/-- The classes among a module's `globals()`. -/
structure Globals where
  classes : List DataClass
  classes_nodup : (classes.map DataClass.name).Nodup
  no_tensor : tensorName ∉ classes.map DataClass.name

def Globals.get (g : Globals) (name : Text) : Option DataClass :=
  g.classes.find? fun c => c.name == name

/-! ## Errors -/

inductive DecodeError where
  | keyError (key : Text)
  | assertionError
  /-- `Unknown serialized message type`. -/
  | unknownType
  | noSuchDType (name : Text)
  | bufferSize
  | viewShape
  /-- A method called on an object that does not have it. -/
  | attributeError
  | unexpectedArgument (name : Text)
  | missingArgument (name : Text)
deriving DecidableEq

def item {α : Type} (data : List (Text × α)) (key : Text) : Except DecodeError α :=
  match lookup key data with
  | some value => .ok value
  | none => .error (.keyError key)

/-! ## Tensors -/

/-- `s.replace(pat, "")`; `k` characters of an occurrence are still to be left out. -/
def removeFrom (pat : Text) : Nat → Text → Text
  | _, [] => []
  | k + 1, _ :: s => removeFrom pat k s
  | 0, c :: s =>
    if pat.isPrefixOf (c :: s) then removeFrom pat (pat.length - 1) s
    else c :: removeFrom pat 0 s

/-- A tensor of these parts, when they fit together. -/
def Tensor.ofParts (dtype : DType) (shape : List Nat) (data : List UInt8) :
    Except DecodeError Tensor :=
  if h : data.length = numel shape * dtype.itemsize ∧ (∀ d ∈ shape, d < 2 ^ 63) ∧
      numel shape < 2 ^ 63 then
    .ok { dtype := dtype, shape := shape, data := data, size := h.1, dims := h.2.1,
          elements := h.2.2 }
  else .error .viewShape

/-- `getattr(np, name)`. -/
def numpyType (name : Text) : Except DecodeError DType :=
  match DType.numpy.find? fun d => d.name == name with
  | some d => .ok d
  | none => .error (.noSuchDType name)

/-- `np.frombuffer`: all elements, in one dimension. -/
def frombuffer (buffer : List UInt8) (dtype : DType) : Except DecodeError Tensor :=
  if buffer.length % dtype.itemsize ≠ 0 then .error .bufferSize
  else Tensor.ofParts dtype [buffer.length / dtype.itemsize] buffer

/-- The sizes that `view` takes for `n` elements: one of them may be `-1`, which stands for
what the others leave. -/
def viewSizes (n : Nat) (shape : List Int) : Except DecodeError (List Nat) :=
  if shape.all fun d => decide (0 ≤ d) then .ok (shape.map Int.toNat)
  else
    let known := numel ((shape.filter fun d => d ≠ -1).map Int.toNat)
    if shape.count (-1) ≠ 1 ∨ shape.any (fun d => decide (d < -1)) ∨ known = 0 ∨
        n % known ≠ 0 then
      .error .viewShape
    else .ok (shape.map fun d => if d = -1 then n / known else d.toNat)

/-- The sizes in a `shape` entry. -/
def shapeInts : List Wire → Except DecodeError (List Int)
  | [] => .ok []
  | .int d :: ws => (shapeInts ws).map (d :: ·)
  | _ :: _ => .error .viewShape

def Tensor.view (t : Tensor) (shape : List Int) : Except DecodeError Tensor := do
  let sizes ← viewSizes (numel t.shape) shape
  Tensor.ofParts t.dtype sizes t.data

/-- The last step: the shape, unless it was left out. -/
def reshaped (t : Tensor) : Option Wire → Except DecodeError Tensor
  | none => .ok t
  | some .none => .ok t
  | some (.int d) => t.view [d]
  | some (.list sizes) => do t.view (← shapeInts sizes)
  | some (.tuple sizes) => do t.view (← shapeInts sizes)
  | some _ => .error .viewShape

/-- The tensor of a buffer; bfloat16 travels as the integers of its width. -/
def tensorOf (dtypeStr : Text) (buffer : List UInt8) (shape : Option Wire) :
    Except DecodeError Tensor :=
  if dtypeStr == "bfloat16".toList then do
    let flat ← frombuffer buffer (← numpyType "uint16".toList)
    reshaped (← Tensor.ofParts .bfloat16 flat.shape flat.data) shape
  else do
    reshaped (← frombuffer buffer (← numpyType dtypeStr)) shape

/-- `deserialize_type` of a map tagged `Tensor`. -/
def deserializeTensor (data : List (Text × Wire)) : Except DecodeError Tensor := do
  let buffer ← item data "buffer".toList
  let dtype ← item data "dtype".toList
  match dtype, buffer with
  | .str s, .bytes bytes =>
    tensorOf (removeFrom "torch.".toList 0 s) bytes (lookup "shape".toList data)
  | .str _, _ => .error .assertionError
  | _, _ => .error .attributeError

/-! ## Objects -/

/-- The first error of the fields in order, else their values. -/
def collect : List (Text × Except DecodeError Value) → Except DecodeError (List (Text × Value))
  | [] => .ok []
  | (k, v) :: es => do
    let value ← v
    let rest ← collect es
    .ok ((k, value) :: rest)

/-- The value of a field: its argument, else its default. -/
def fieldValue (kwargs : List (Text × Value)) (f : Text × Option Value) :
    Except DecodeError (Text × Value) :=
  match lookup f.1 kwargs, f.2 with
  | some v, _ => .ok (f.1, v)
  | none, some v => .ok (f.1, v)
  | none, none => .error (.missingArgument f.1)

/-- `cls(**kwargs)`. -/
def construct (cls : DataClass) (kwargs : List (Text × Value)) : Except DecodeError Value :=
  match kwargs.find? fun a => !hasKey a.1 cls.fields with
  | some a => .error (.unexpectedArgument a.1)
  | none => (cls.fields.mapM (fieldValue kwargs)).map (.object cls.name)

/-- `deserialize_type`; `fields` has what each entry decodes to. -/
def deserializeType (g : Globals) (data : List (Text × Wire))
    (fields : List (Text × Except DecodeError Value)) : Except DecodeError Value := do
  let typeName ← item data typeKey
  match typeName with
  | .str name =>
    if name = tensorName then
      (deserializeTensor data).map .tensor
    else
      match g.get name with
      | none => .error .unknownType
      | some cls =>
        let kwargs ← collect (fields.filter fun e => e.1 ≠ typeKey)
        construct cls kwargs
  | _ => .error .unknownType

/-- `_deserialize_any` of a dictionary: `inner` is for the entries of the one value, which a
wrapper holds, and `fields` for its own entries. -/
def deserializeDict (g : Globals) (data : List (Text × Wire))
    (inner : Except DecodeError (List (Text × Value)))
    (fields : List (Text × Except DecodeError Value)) : Except DecodeError Value :=
  if data.length = 1 ∧ hasKey rawDictKey data then inner.map .dict
  else if hasKey typeKey data then deserializeType g data fields
  else (collect fields).map .dict

mutual

/-- `_deserialize_any`. -/
def deserializeAny (g : Globals) : Wire → Except DecodeError Value
  | .map data => deserializeDict g data (wrapped g data) (deserializeFields g data)
  | .list items => (deserializeItems g items).map .list
  | .tuple items => (deserializeItems g items).map .tuple
  | .none => .ok .none
  | .bool b => .ok (.bool b)
  | .int i => .ok (.int i)
  | .float bits => .ok (.float bits)
  | .str s => .ok (.str s)
  | .bytes b => .ok (.bytes b)

def deserializeItems (g : Globals) : List Wire → Except DecodeError (List Value)
  | [] => .ok []
  | w :: ws => do
    let v ← deserializeAny g w
    let vs ← deserializeItems g ws
    .ok (v :: vs)

/-- What each entry decodes to. -/
def deserializeFields (g : Globals) :
    List (Text × Wire) → List (Text × Except DecodeError Value)
  | [] => []
  | (k, w) :: es => (k, deserializeAny g w) :: deserializeFields g es

/-- The entries of the first value, decoded. -/
def wrapped (g : Globals) : List (Text × Wire) → Except DecodeError (List (Text × Value))
  | [] => .ok []
  | (_, w) :: _ => innerItems g w

/-- The entries of a value that must be a dictionary. -/
def innerItems (g : Globals) : Wire → Except DecodeError (List (Text × Value))
  | .map inner => collect (deserializeFields g inner)
  | _ => .error .attributeError

end

/-- A module's `decoder`. -/
def decoder (g : Globals) : Wire → Except DecodeError Value
  | .map data => deserializeType g data (deserializeFields g data)
  | _ => .error .attributeError

end FreeToken.Message
