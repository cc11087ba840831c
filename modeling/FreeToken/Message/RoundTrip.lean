import FreeToken.Message.Modules

/-!
# Messages survive the wire

Main results:

* `deserializeTensor_serializeTensor`: a tensor of any shape and type comes back, bit for
  bit.
* `deserializeAny_serializeAny`: any value a message may hold comes back with its tuples as
  lists, whatever keys the dictionaries in it have.
* `packable_serializeAny`: what is written for a value fits into `msgpack`.
* `messages_survive_the_wire`: so a message of any module comes back, and a client's
  dictionary is always decoded as a dictionary.
-/

namespace FreeToken.Message

/-! ## Values of messages -/

mutual

/-- A value that a message of these classes may hold: its integers have 64 bits, a dictionary
has each key once, and an object has the attributes of its class. -/
def Globals.sound (g : Globals) : Value → Bool
  | .int i => decide (-2 ^ 63 ≤ i ∧ i < 2 ^ 64)
  | .list items => soundItems g items
  | .tuple items => soundItems g items
  | .dict entries => decide (entries.map Prod.fst).Nodup && soundEntries g entries
  | .object cls attrs =>
    (match g.get cls with
      | some c => decide (c.fields.map Prod.fst = attrs.map Prod.fst)
      | none => false) && soundEntries g attrs
  | _ => true

def soundItems (g : Globals) : List Value → Bool
  | [] => true
  | v :: vs => g.sound v && soundItems g vs

def soundEntries (g : Globals) : List (Text × Value) → Bool
  | [] => true
  | (_, v) :: es => g.sound v && soundEntries g es

end

/-- A message of a module: an instance of one of its classes. -/
structure Msg (g : Globals) where
  cls : Text
  attrs : List (Text × Value)
  sound : g.sound (.object cls attrs) = true

/-- The encoder of a module: `serialize_type`. -/
def Msg.encoder {g : Globals} (m : Msg g) : Wire :=
  serializeObject m.cls (serializeEntries m.attrs)

/-! ## Dictionaries -/

section Dict

variable {α : Type}

theorem hasKey_iff (key : Text) (entries : List (Text × α)) :
    hasKey key entries = true ↔ key ∈ entries.map Prod.fst := by
  simp [hasKey]

theorem hasKey_eq_false (key : Text) (entries : List (Text × α)) :
    hasKey key entries = false ↔ key ∉ entries.map Prod.fst := by
  rw [← hasKey_iff]
  simp

/-- Whether a key is there depends on the keys only. -/
theorem hasKey_congr {β : Type} {key : Text} {entries : List (Text × α)}
    {others : List (Text × β)} (h : entries.map Prod.fst = others.map Prod.fst) :
    hasKey key entries = hasKey key others := by
  rw [Bool.eq_iff_iff, hasKey_iff, hasKey_iff, h]

/-- New keys go to the end. -/
theorem foldl_setItem (entries : List (Text × α)) :
    ∀ d : List (Text × α), ((d ++ entries).map Prod.fst).Nodup →
      entries.foldl (fun d a => setItem d a.1 a.2) d = d ++ entries := by
  induction entries with
  | nil => intro d _; simp
  | cons e es ih =>
    intro d h
    have hnew : hasKey e.1 d = false := by
      rw [hasKey_eq_false]
      intro hm
      rw [List.map_append, List.nodup_append] at h
      exact h.2.2 _ hm _ (by simp) rfl
    have hset : setItem d e.1 e.2 = d ++ [e] := by simp [setItem, hnew]
    rw [List.foldl_cons, hset, ih (d ++ [e]) (by simpa using h)]
    simp

theorem lookup_of_mem {entries : List (Text × α)} (h : (entries.map Prod.fst).Nodup)
    {e : Text × α} (he : e ∈ entries) : lookup e.1 entries = some e.2 := by
  induction entries with
  | nil => simp at he
  | cons f es ih =>
    rw [List.map_cons, List.nodup_cons] at h
    rcases List.mem_cons.mp he with rfl | hes
    · simp [lookup]
    · have hne : f.1 ≠ e.1 := fun heq => h.1 (heq ▸ List.mem_map_of_mem hes)
      have hrest := ih h.2 hes
      simpa [lookup, hne] using hrest

end Dict

theorem keys_serializeEntries (entries : List (Text × Value)) :
    (serializeEntries entries).map Prod.fst = entries.map Prod.fst := by
  induction entries with
  | nil => simp [serializeEntries]
  | cons e es ih => simp [serializeEntries, ih]

theorem keys_arrivedEntries (entries : List (Text × Wire)) :
    (arrivedEntries entries).map Prod.fst = entries.map Prod.fst := by
  induction entries with
  | nil => simp [arrivedEntries]
  | cons e es ih => simp [arrivedEntries, ih]

theorem keys_listedEntries (entries : List (Text × Value)) :
    (listedEntries entries).map Prod.fst = entries.map Prod.fst := by
  induction entries with
  | nil => simp [listedEntries]
  | cons e es ih => simp [listedEntries, ih]

theorem collect_ok (entries : List (Text × Value)) :
    collect (entries.map fun e => (e.1, .ok e.2)) = .ok entries := by
  induction entries with
  | nil => simp [collect]
  | cons e es ih =>
    simp only [List.map_cons, collect]
    rw [ih]
    rfl

/-! ## Tensors -/

theorem ofParts_ok {dtype : DType} {shape : List Nat} {data : List UInt8}
    (h : data.length = numel shape * dtype.itemsize ∧ (∀ d ∈ shape, d < 2 ^ 63) ∧
      numel shape < 2 ^ 63) :
    Tensor.ofParts dtype shape data =
      .ok { dtype := dtype, shape := shape, data := data, size := h.1, dims := h.2.1,
            elements := h.2.2 } :=
  dif_pos h

theorem ofParts_parts (t : Tensor) : Tensor.ofParts t.dtype t.shape t.data = .ok t :=
  ofParts_ok ⟨t.size, t.dims, t.elements⟩

/-- A type is found by the name that was written for it. -/
theorem numpyType_name (d : DType) (h : d ≠ .bfloat16) :
    numpyType (removeFrom "torch.".toList 0 d.str) = .ok d := by
  cases d <;> first | decide +kernel | exact absurd rfl h

theorem isBf16_name (d : DType) :
    (removeFrom "torch.".toList 0 d.str == "bfloat16".toList) = decide (d = .bfloat16) := by
  cases d <;> decide +kernel

/-- The elements of a tensor in one dimension, under a type of the same width. -/
theorem flat_fits (t : Tensor) {d : DType} (h : d.itemsize = t.dtype.itemsize) :
    t.data.length = numel [numel t.shape] * d.itemsize ∧
      (∀ n ∈ [numel t.shape], n < 2 ^ 63) ∧ numel [numel t.shape] < 2 ^ 63 := by
  have hone : numel [numel t.shape] = numel t.shape := by simp [numel]
  refine ⟨by rw [hone, h, t.size], ?_, by rw [hone]; exact t.elements⟩
  intro n hn
  rw [List.mem_singleton.mp hn]
  exact t.elements

/-- `t.flat d`: the same bytes in one dimension of a type of the same width. -/
def Tensor.flat (t : Tensor) (d : DType) (h : d.itemsize = t.dtype.itemsize) : Tensor where
  dtype := d
  shape := [numel t.shape]
  data := t.data
  size := (flat_fits t h).1
  dims := (flat_fits t h).2.1
  elements := (flat_fits t h).2.2

theorem frombuffer_data (t : Tensor) {d : DType} (h : d.itemsize = t.dtype.itemsize) :
    frombuffer t.data d = .ok (t.flat d h) := by
  have hmod : t.data.length % d.itemsize = 0 := by simp [t.size, h]
  have hdiv : t.data.length / d.itemsize = numel t.shape := by
    rw [t.size, h]
    exact Nat.mul_div_cancel _ t.dtype.itemsize_pos
  rw [frombuffer, if_neg (by omega), hdiv]
  exact ofParts_ok (flat_fits t h)

theorem viewSizes_nat (n : Nat) (shape : List Nat) :
    viewSizes n (shape.map fun d : Nat => (d : Int)) = .ok shape := by
  unfold viewSizes
  rw [if_pos (by simp)]
  simp [Function.comp_def]

theorem shapeInts_ints (shape : List Nat) :
    shapeInts (shape.map fun d : Nat => .int d) = .ok (shape.map fun d : Nat => (d : Int)) := by
  induction shape with
  | nil => rfl
  | cons d ds ih =>
    simp only [List.map_cons, shapeInts, ih]
    rfl

/-- The shape that was written gives the tensor back. -/
theorem view_shape (t : Tensor) :
    (t.flat t.dtype rfl).view (t.shape.map fun d : Nat => (d : Int)) = .ok t := by
  unfold Tensor.view
  rw [viewSizes_nat]
  exact ofParts_parts t

/-- A tensor of one dimension is flat already. -/
theorem flat_one (t : Tensor) (h : t.shape.length = 1) : t.flat t.dtype rfl = t := by
  obtain ⟨d, hd⟩ := List.length_eq_one_iff.mp h
  have hn : [numel t.shape] = t.shape := by simp [hd, numel]
  cases t
  simp only [Tensor.flat, Tensor.mk.injEq, true_and, and_true]
  exact hn

theorem lookup_buffer (t : Tensor) :
    lookup "buffer".toList (tensorEntries t) = some (.bytes t.data) := by
  unfold tensorEntries
  split <;> rfl

theorem lookup_dtype (t : Tensor) :
    lookup "dtype".toList (tensorEntries t) = some (.str t.dtype.str) := by
  unfold tensorEntries
  split <;> rfl

theorem lookup_shape (t : Tensor) :
    lookup "shape".toList (tensorEntries t) =
      if t.shape.length ≠ 1 then some (.list (t.shape.map fun d : Nat => .int d)) else none := by
  unfold tensorEntries
  split <;> rfl

theorem lookup_type (t : Tensor) :
    lookup typeKey (tensorEntries t) = some (.str tensorName) := by
  unfold tensorEntries
  split <;> rfl

theorem reshaped_shape (t : Tensor) :
    reshaped (t.flat t.dtype rfl) (lookup "shape".toList (tensorEntries t)) = .ok t := by
  rw [lookup_shape]
  split
  · simp only [reshaped, shapeInts_ints]
    exact view_shape t
  · simp only [reshaped]
    rw [flat_one t (by omega)]

theorem tensorOf_bf16 (t : Tensor) (h : t.dtype = .bfloat16) (shape : Option Wire) :
    tensorOf (removeFrom "torch.".toList 0 t.dtype.str) t.data shape =
      reshaped (t.flat t.dtype rfl) shape := by
  have hw : DType.uint16.itemsize = t.dtype.itemsize := by rw [h]; rfl
  have hname : numpyType "uint16".toList = .ok .uint16 := by decide +kernel
  have hback : Tensor.ofParts .bfloat16 (t.flat .uint16 hw).shape (t.flat .uint16 hw).data =
      .ok (t.flat t.dtype rfl) := by
    rw [← h]
    exact ofParts_parts (t.flat t.dtype rfl)
  have hflat := frombuffer_data t hw
  rw [tensorOf, if_pos (by rw [isBf16_name, h]; rfl), hname]
  show (frombuffer t.data .uint16 >>= _) = _
  rw [hflat]
  show (Tensor.ofParts .bfloat16 (t.flat .uint16 hw).shape (t.flat .uint16 hw).data >>= _) = _
  rw [hback]
  rfl

theorem tensorOf_numpy (t : Tensor) (h : t.dtype ≠ .bfloat16) (shape : Option Wire) :
    tensorOf (removeFrom "torch.".toList 0 t.dtype.str) t.data shape =
      reshaped (t.flat t.dtype rfl) shape := by
  have hflat := frombuffer_data t (d := t.dtype) rfl
  rw [tensorOf, if_neg (by rw [isBf16_name]; simpa using h), numpyType_name t.dtype h]
  show (frombuffer t.data t.dtype >>= _) = _
  rw [hflat]
  rfl

/-- A tensor of any shape and type comes back. -/
theorem deserializeTensor_serializeTensor (t : Tensor) :
    deserializeTensor (tensorEntries t) = .ok t := by
  have hbuffer : item (tensorEntries t) "buffer".toList = .ok (.bytes t.data) := by
    rw [item, lookup_buffer]
  have hdtype : item (tensorEntries t) "dtype".toList = .ok (.str t.dtype.str) := by
    rw [item, lookup_dtype]
  rw [deserializeTensor, hbuffer, hdtype]
  show tensorOf (removeFrom "torch.".toList 0 t.dtype.str) t.data
    (lookup "shape".toList (tensorEntries t)) = _
  by_cases h : t.dtype = .bfloat16
  · rw [tensorOf_bf16 t h, reshaped_shape]
  · rw [tensorOf_numpy t h, reshaped_shape]

theorem arrivedItems_ints (shape : List Nat) :
    arrivedItems (shape.map fun d : Nat => .int d) = shape.map fun d : Nat => .int d := by
  induction shape with
  | nil => rfl
  | cons d ds ih => simp only [List.map_cons, arrivedItems, Wire.arrived, ih]

theorem arrived_tensorEntries (t : Tensor) :
    arrivedEntries (tensorEntries t) = tensorEntries t := by
  unfold tensorEntries
  split
  · simp [arrivedEntries, Wire.arrived, arrivedItems_ints]
  · simp [arrivedEntries, Wire.arrived]

/-! ## Objects -/

theorem get_name {g : Globals} {name : Text} {c : DataClass} (h : g.get name = some c) :
    c.name = name ∧ name ≠ tensorName := by
  have hname : c.name = name := by simpa using List.find?_some h
  refine ⟨hname, ?_⟩
  intro heq
  apply g.no_tensor
  rw [← heq, ← hname]
  exact List.mem_map_of_mem (List.mem_of_find?_eq_some h)

/-- Each field takes its argument. -/
theorem mapM_fieldValue (kwargs : List (Text × Value)) (fields : List (Text × Option Value)) :
    ∀ attrs : List (Text × Value), fields.map Prod.fst = attrs.map Prod.fst →
      (∀ e ∈ attrs, lookup e.1 kwargs = some e.2) →
        fields.mapM (fieldValue kwargs) = .ok attrs := by
  induction fields with
  | nil =>
    intro attrs hkeys _
    rw [List.map_eq_nil_iff.mp hkeys.symm]
    rfl
  | cons f fs ih =>
    intro attrs hkeys hvalues
    cases attrs with
    | nil => simp at hkeys
    | cons e es =>
      rw [List.map_cons, List.map_cons, List.cons.injEq] at hkeys
      have hvalue : fieldValue kwargs f = .ok e := by
        have he := hvalues e (by simp)
        rw [← hkeys.1] at he
        simp only [fieldValue, he]
        rw [hkeys.1]
      have hrest := ih es hkeys.2 fun e he => hvalues e (by simp [he])
      rw [List.mapM_cons, hvalue]
      show (fs.mapM (fieldValue kwargs) >>= fun rest => pure (e :: rest)) = _
      rw [hrest]
      rfl

/-- Arguments for exactly the fields of a class become its attributes. -/
theorem construct_ok {c : DataClass} {attrs : List (Text × Value)}
    (h : c.fields.map Prod.fst = attrs.map Prod.fst) :
    construct c attrs = .ok (.object c.name attrs) := by
  have hnodup : (attrs.map Prod.fst).Nodup := h ▸ c.names_nodup
  have hknown : (attrs.find? fun a => !hasKey a.1 c.fields) = none := by
    rw [List.find?_eq_none]
    intro a ha
    have hmem : a.1 ∈ c.fields.map Prod.fst := h ▸ List.mem_map_of_mem ha
    simp [(hasKey_iff a.1 c.fields).mpr hmem]
  have hfields := mapM_fieldValue attrs c.fields attrs h fun e he => lookup_of_mem hnodup he
  rw [construct, hknown]
  show (c.fields.mapM (fieldValue attrs)).map (Value.object c.name) = _
  rw [hfields]
  rfl

theorem deserializeType_tensor (g : Globals) (t : Tensor)
    (fields : List (Text × Except DecodeError Value)) :
    deserializeType g (tensorEntries t) fields = .ok (.tensor t) := by
  have htag : item (tensorEntries t) typeKey = .ok (.str tensorName) := by
    rw [item, lookup_type]
  rw [deserializeType, htag]
  show (deserializeTensor (tensorEntries t)).map Value.tensor = _
  rw [deserializeTensor_serializeTensor]
  rfl

/-- The entries of an object are read back into its class. -/
theorem deserializeType_object {g : Globals} {cls : Text} {c : DataClass}
    (hc : g.get cls = some c) {attrs : List (Text × Value)}
    (hkeys : c.fields.map Prod.fst = attrs.map Prod.fst) (data : List (Text × Wire)) :
    deserializeType g ((typeKey, .str cls) :: data)
        ((typeKey, .ok (.str cls)) :: attrs.map fun e => (e.1, .ok e.2)) =
      .ok (.object cls attrs) := by
  have htag : item ((typeKey, Wire.str cls) :: data) typeKey = .ok (.str cls) := by
    simp [item, lookup]
  have huntagged : typeKey ∉ attrs.map Prod.fst := hkeys ▸ c.untagged
  -- the tag is not among the attributes: exactly they are the arguments
  have hkwargs : ((typeKey, Except.ok (Value.str cls)) ::
      attrs.map fun e => (e.1, Except.ok e.2)).filter (fun e => e.1 ≠ typeKey) =
        attrs.map fun e => (e.1, (Except.ok e.2 : Except DecodeError Value)) := by
    rw [List.filter_cons_of_neg (by simp), List.filter_eq_self]
    intro e he
    obtain ⟨a, ha, rfl⟩ := List.mem_map.mp he
    have hne : a.1 ≠ typeKey := fun heq => huntagged (heq ▸ List.mem_map_of_mem ha)
    simpa using hne
  obtain ⟨hname, htensor⟩ := get_name hc
  rw [deserializeType, htag]
  show (if cls = tensorName then _ else _) = _
  rw [if_neg htensor]
  simp only [hc]
  rw [hkwargs, collect_ok]
  show construct c attrs = _
  rw [construct_ok hkeys, hname]

/-! ## Any value -/

/-- A dictionary without the tags as keys decodes entry by entry. -/
theorem deserializeDict_plain (g : Globals) {data : List (Text × Wire)}
    (htype : hasKey typeKey data = false) (hraw : hasKey rawDictKey data = false)
    (inner : Except DecodeError (List (Text × Value))) (entries : List (Text × Value)) :
    deserializeDict g data inner (entries.map fun e => (e.1, .ok e.2)) = .ok (.dict entries) := by
  unfold deserializeDict
  rw [if_neg (by simp [hraw]), if_neg (by simp [htype]), collect_ok]
  rfl

/-- A tagged map is no wrapper: its only key would be the wrapper's. -/
theorem deserializeDict_tagged (g : Globals) {data : List (Text × Wire)}
    (htag : hasKey typeKey data = true) (inner : Except DecodeError (List (Text × Value)))
    (fields : List (Text × Except DecodeError Value)) :
    deserializeDict g data inner fields = deserializeType g data fields := by
  have hnot : ¬ (data.length = 1 ∧ hasKey rawDictKey data = true) := by
    rintro ⟨hlen, hraw⟩
    obtain ⟨e, rfl⟩ := List.length_eq_one_iff.mp hlen
    rw [hasKey_iff] at htag hraw
    simp only [List.map_cons, List.map_nil, List.mem_singleton] at htag hraw
    exact absurd (htag.trans hraw.symm) (by decide)
  rw [deserializeDict, if_neg hnot, if_pos htag]

/-- A client's dictionary comes back, whatever its keys: one that has a tag as a key comes out
of its wrapper without a look at its keys. -/
theorem deserializeAny_wrapDict (g : Globals) {encoded : List (Text × Wire)}
    {entries : List (Text × Value)}
    (h : deserializeFields g (arrivedEntries encoded) = entries.map fun e => (e.1, .ok e.2)) :
    deserializeAny g (wrapDict encoded).arrived = .ok (.dict entries) := by
  unfold wrapDict
  split
  · -- the one entry of the wrapper
    simp only [Wire.arrived, arrivedEntries, deserializeAny, wrapped, innerItems, h, collect_ok]
    rw [deserializeDict, if_pos (by simp [hasKey])]
    rfl
  · rename_i hfree
    simp only [Bool.or_eq_true, not_or, Bool.not_eq_true] at hfree
    have hkeys := keys_arrivedEntries encoded
    simp only [Wire.arrived, deserializeAny, h]
    exact deserializeDict_plain g (by rw [hasKey_congr hkeys, hfree.1])
      (by rw [hasKey_congr hkeys, hfree.2]) _ entries

theorem deserializeAny_serializeTensor (g : Globals) (t : Tensor) :
    deserializeAny g (serializeTensor t).arrived = .ok (.tensor t) := by
  have htag : hasKey typeKey (tensorEntries t) = true := by
    rw [hasKey_iff, tensorEntries]
    split <;> simp
  simp only [serializeTensor, Wire.arrived, arrived_tensorEntries, deserializeAny]
  rw [deserializeDict_tagged g htag, deserializeType_tensor]

/-- What `serialize_type` writes for an object: the tag, then the attributes. -/
theorem serializeObject_eq (cls : Text) {c : DataClass} {attrs : List (Text × Wire)}
    (hkeys : c.fields.map Prod.fst = attrs.map Prod.fst) :
    serializeObject cls attrs = .map ((typeKey, .str cls) :: attrs) := by
  have hnodup : (([(typeKey, Wire.str cls)] ++ attrs).map Prod.fst).Nodup := by
    simp only [List.cons_append, List.nil_append, List.map_cons, List.nodup_cons]
    exact ⟨hkeys ▸ c.untagged, hkeys ▸ c.names_nodup⟩
  rw [serializeObject, foldl_setItem attrs _ hnodup]
  rfl

mutual

/-- Any value a message may hold comes back with its tuples as lists. -/
theorem deserializeAny_serializeAny (g : Globals) :
    ∀ v, g.sound v = true → deserializeAny g (serializeAny v).arrived = .ok v.listed
  | .none, _ => rfl
  | .bool _, _ => rfl
  | .int _, _ => rfl
  | .float _, _ => rfl
  | .str _, _ => rfl
  | .bytes _, _ => rfl
  | .tensor t, _ => deserializeAny_serializeTensor g t
  | .list items, h => by
    have hitems := deserializeItems_serializeItems g items (by simpa [Globals.sound] using h)
    simp only [serializeAny, Wire.arrived, deserializeAny, hitems, Value.listed]
    rfl
  | .tuple items, h => by
    have hitems := deserializeItems_serializeItems g items (by simpa [Globals.sound] using h)
    simp only [serializeAny, Wire.arrived, deserializeAny, hitems, Value.listed]
    rfl
  | .dict entries, h => by
    simp only [Globals.sound, Bool.and_eq_true] at h
    have hfields := deserializeFields_serializeEntries g entries h.2
    exact deserializeAny_wrapDict g hfields
  | .object cls attrs, h => by
    simp only [Globals.sound, Bool.and_eq_true] at h
    have hfields := deserializeFields_serializeEntries g attrs h.2
    have hclass := h.1
    split at hclass
    · rename_i c hc
      have hkeys := of_decide_eq_true hclass
      have hencoded := serializeObject_eq cls (hkeys.trans (keys_serializeEntries attrs).symm)
      have htag : hasKey typeKey
          ((typeKey, Wire.str cls) :: arrivedEntries (serializeEntries attrs)) = true := by
        simp [hasKey]
      simp only [serializeAny, hencoded, Wire.arrived, arrivedEntries, deserializeAny,
        deserializeFields, hfields, Value.listed]
      rw [deserializeDict_tagged g htag]
      exact deserializeType_object hc (hkeys.trans (keys_listedEntries attrs).symm) _
    · cases hclass

theorem deserializeItems_serializeItems (g : Globals) :
    ∀ vs, soundItems g vs = true →
      deserializeItems g (arrivedItems (serializeItems vs)) = .ok (listedItems vs)
  | [], _ => rfl
  | v :: vs, h => by
    simp only [soundItems, Bool.and_eq_true] at h
    have hv := deserializeAny_serializeAny g v h.1
    have hvs := deserializeItems_serializeItems g vs h.2
    simp only [serializeItems, arrivedItems, deserializeItems, hv, hvs, listedItems]
    rfl

theorem deserializeFields_serializeEntries (g : Globals) :
    ∀ es, soundEntries g es = true →
      deserializeFields g (arrivedEntries (serializeEntries es)) =
        (listedEntries es).map fun e => (e.1, .ok e.2)
  | [], _ => rfl
  | (k, v) :: es, h => by
    simp only [soundEntries, Bool.and_eq_true] at h
    have hv := deserializeAny_serializeAny g v h.1
    have hes := deserializeFields_serializeEntries g es h.2
    simp only [serializeEntries, arrivedEntries, deserializeFields, hv, hes, listedEntries,
      List.map_cons]

end

/-! ## What fits into `msgpack` -/

theorem packable_ints (shape : List Nat) (h : ∀ d ∈ shape, d < 2 ^ 63) :
    packableItems (shape.map fun d : Nat => .int d) = true := by
  induction shape with
  | nil => rfl
  | cons d ds ih =>
    have hd : d < 2 ^ 63 := h d (by simp)
    have hint : (-2 ^ 63 ≤ (d : Int) ∧ (d : Int) < 2 ^ 64) := by omega
    simp only [List.map_cons, packableItems, Wire.packable, Bool.and_eq_true]
    exact ⟨decide_eq_true hint, ih fun e he => h e (by simp [he])⟩

theorem packable_serializeTensor (t : Tensor) : (serializeTensor t).packable = true := by
  unfold serializeTensor tensorEntries
  split
  · simp [Wire.packable, packableEntries, packable_ints t.shape t.dims]
  · simp [Wire.packable, packableEntries]

theorem packable_wrapDict {encoded : List (Text × Wire)}
    (h : packableEntries encoded = true) : (wrapDict encoded).packable = true := by
  unfold wrapDict
  split <;> simp [Wire.packable, packableEntries, h]

mutual

/-- What is written for a value fits into `msgpack`. -/
theorem packable_serializeAny (g : Globals) :
    ∀ v, g.sound v = true → (serializeAny v).packable = true
  | .none, _ => rfl
  | .bool _, _ => rfl
  | .int _, h => h
  | .float _, _ => rfl
  | .str _, _ => rfl
  | .bytes _, _ => rfl
  | .tensor t, _ => packable_serializeTensor t
  | .list items, h => packable_serializeItems g items h
  | .tuple items, h => packable_serializeItems g items h
  | .dict entries, h => by
    simp only [Globals.sound, Bool.and_eq_true] at h
    exact packable_wrapDict (packable_serializeEntries g entries h.2)
  | .object cls attrs, h => by
    simp only [Globals.sound, Bool.and_eq_true] at h
    have hfits := packable_serializeEntries g attrs h.2
    have hclass := h.1
    split at hclass
    · rename_i c hc
      have hkeys := of_decide_eq_true hclass
      have hencoded := serializeObject_eq cls (hkeys.trans (keys_serializeEntries attrs).symm)
      simp [serializeAny, hencoded, Wire.packable, packableEntries, hfits]
    · cases hclass

theorem packable_serializeItems (g : Globals) :
    ∀ vs, soundItems g vs = true → packableItems (serializeItems vs) = true
  | [], _ => rfl
  | v :: vs, h => by
    simp only [soundItems, Bool.and_eq_true] at h
    simp [serializeItems, packableItems, packable_serializeAny g v h.1,
      packable_serializeItems g vs h.2]

theorem packable_serializeEntries (g : Globals) :
    ∀ es, soundEntries g es = true → packableEntries (serializeEntries es) = true
  | [], _ => rfl
  | (_, v) :: es, h => by
    simp only [soundEntries, Bool.and_eq_true] at h
    simp [serializeEntries, packableEntries, packable_serializeAny g v h.1,
      packable_serializeEntries g es h.2]

end

/-! ## Messages -/

/-- The decoder reads back what the encoder of a message wrote. -/
theorem decoder_encoder {g : Globals} (m : Msg g) :
    decoder g m.encoder.arrived = .ok (Value.object m.cls m.attrs).listed := by
  have hany := deserializeAny_serializeAny g (.object m.cls m.attrs) m.sound
  have hsound := m.sound
  simp only [Globals.sound, Bool.and_eq_true] at hsound
  have hclass := hsound.1
  split at hclass
  · rename_i c hc
    have hkeys := of_decide_eq_true hclass
    have hencoded := serializeObject_eq m.cls (hkeys.trans (keys_serializeEntries m.attrs).symm)
    have htag : hasKey typeKey
        ((typeKey, Wire.str m.cls) :: arrivedEntries (serializeEntries m.attrs)) = true := by
      simp [hasKey]
    simp only [serializeAny, hencoded, Wire.arrived, arrivedEntries, deserializeAny] at hany
    rw [deserializeDict_tagged g htag] at hany
    simpa only [Msg.encoder, hencoded, Wire.arrived, arrivedEntries, decoder] using hany
  · cases hclass

/-- Messages survive the wire: for each module, a message that is encoded, packed, unpacked and
decoded is the message, up to tuples that arrive as lists; and a dictionary of a client is
always decoded as a dictionary, with its own keys. -/
theorem messages_survive_the_wire {P : Type} (msgpack : MsgPack P) (mod : Module) :
    (∀ m : Msg mod.globals, ∃ packed arrived,
      msgpack.packb m.encoder = some packed ∧ msgpack.unpackb packed = some arrived ∧
        decoder mod.globals arrived = .ok (Value.object m.cls m.attrs).listed) ∧
    ∀ entries, mod.globals.sound (.dict entries) = true → ∃ packed arrived,
      msgpack.packb (serializeAny (.dict entries)) = some packed ∧
        msgpack.unpackb packed = some arrived ∧
          deserializeAny mod.globals arrived = .ok (.dict (listedEntries entries)) := by
  constructor
  · intro m
    have hfits := packable_serializeAny mod.globals (.object m.cls m.attrs) m.sound
    obtain ⟨packed, hpack, hunpack⟩ := msgpack.carries m.encoder hfits
    exact ⟨packed, _, hpack, hunpack, decoder_encoder m⟩
  · intro entries h
    have hfits := packable_serializeAny mod.globals (.dict entries) h
    obtain ⟨packed, hpack, hunpack⟩ := msgpack.carries _ hfits
    exact ⟨packed, _, hpack, hunpack, deserializeAny_serializeAny mod.globals _ h⟩

/-- A `msgpack` that hands its objects on. -/
def handOn : MsgPack Wire where
  packb w := if w.packable then some w else none
  unpackb w := some w.arrived
  carries w h := ⟨w, by simp [h], rfl⟩

/-- A client's dictionary that has both tags as keys. -/
def taggedDict : List (Text × Value) :=
  [("__type__".toList, .str "ExitMsg".toList),
    ("__raw_dict__".toList, .dict [("__raw_dict__".toList, .tuple [.int 1])])]

def taggedTokenizeMsg : Msg tokenizer where
  cls := "TokenizeMsg".toList
  attrs :=
    [("uid".toList, .int 7), ("text".toList, .str "hi".toList),
      ("sampling_params".toList,
        .object "SamplingParams".toList
          [("temperature".toList, .float 0), ("top_k".toList, .int (-1)),
            ("top_p".toList, .float 0), ("ignore_eos".toList, .bool false),
            ("max_tokens".toList, .int 16), ("stop_strs".toList, .list []),
            ("logprobs".toList, .bool false), ("top_logprobs".toList, .int 0)]),
      ("chat_template_kwargs".toList, .dict taggedDict), ("tools".toList, .none),
      ("session_id".toList, .none), ("session_ttl_seconds".toList, .none),
      ("session_reclaimable".toList, .bool false), ("hidden_states".toList, .none),
      ("no_prefix_cache".toList, .bool false), ("pin_key".toList, .none),
      ("images".toList, .list [.bytes [255, 216]])]
  sound := by decide +kernel

theorem tagged_survives_the_wire :
    (∃ packed arrived, handOn.packb taggedTokenizeMsg.encoder = some packed ∧
      handOn.unpackb packed = some arrived ∧
        decoder tokenizer arrived =
          .ok (Value.object taggedTokenizeMsg.cls taggedTokenizeMsg.attrs).listed) ∧
    ∃ packed arrived, handOn.packb (serializeAny (.dict taggedDict)) = some packed ∧
      handOn.unpackb packed = some arrived ∧
        deserializeAny tokenizer arrived = .ok (.dict (listedEntries taggedDict)) :=
  ⟨(messages_survive_the_wire handOn .tokenizer).1 taggedTokenizeMsg,
    (messages_survive_the_wire handOn .tokenizer).2 taggedDict (by decide +kernel)⟩

end FreeToken.Message
