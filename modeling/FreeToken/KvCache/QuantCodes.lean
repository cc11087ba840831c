import Mathlib.Data.List.Range
import Mathlib.Tactic.Common
import Mathlib.Algebra.Ring.Int.Defs

/-!
# Packed codes of the quantized cache

What `KVQuantSpec.quantize` and the store kernels write for the integer codes of one head, and what
`dequantize` reads back. A row of a tensor is a function of the index; only the indices of its
extent are read. Scales and the rounding that gives the codes are not modelled.
Main results:

* `oneWrites_eq`, `fusedWrites_eq`: the kernels write the reference's bytes, each once and in order.
* `unpack_quantize`: the codes come back.
* `storageDim_eq_ok`, `logicalDim_eq_ok`: the extents are inverse.
-/

namespace FreeToken.KvCache

/-! ## Formats -/

/-- Elements of a scale. -/
def BLOCK : Nat := 32

inductive DType where
  | int8
  | uint8
  | float8_e4m3fn
deriving DecidableEq

structure KVQuantSpec where
  name : String
  storageDtype : Option DType
  maxMagnitude : Nat
  bits : Nat := 8
deriving DecidableEq

namespace KVQuantSpec

variable (spec : KVQuantSpec)

/-- `storage_dim`. -/
def storageDim (logicalDim : Nat) : Except String Nat :=
  if (logicalDim * spec.bits) % 8 ≠ 0 then
    .error s!"head_dim {logicalDim} does not produce whole bytes for {spec.name}"
  else .ok (logicalDim * spec.bits / 8)

/-- `logical_dim`. -/
def logicalDim (storageDim : Nat) : Except String Nat :=
  if (storageDim * 8) % spec.bits ≠ 0 then
    .error s!"storage dim {storageDim} does not represent whole {spec.name} values"
  else .ok (storageDim * 8 / spec.bits)

end KVQuantSpec

def Q8_0 : KVQuantSpec := { name := "q8_0", storageDtype := some .int8, maxMagnitude := 127 }

def FP8_E4M3 : KVQuantSpec :=
  { name := "fp8_e4m3", storageDtype := some .float8_e4m3fn, maxMagnitude := 448 }

def INT4 : KVQuantSpec :=
  { name := "int4", storageDtype := some .uint8, maxMagnitude := 8, bits := 4 }

def Q6_0 : KVQuantSpec :=
  { name := "q6_0", storageDtype := some .uint8, maxMagnitude := 32, bits := 6 }

def Q5_0 : KVQuantSpec :=
  { name := "q5_0", storageDtype := some .uint8, maxMagnitude := 16, bits := 5 }

def NONE : KVQuantSpec := { name := "auto", storageDtype := none, maxMagnitude := 0 }

/-- `_BY_NAME`. -/
def byName : List (String × KVQuantSpec) :=
  [NONE, Q8_0, FP8_E4M3, INT4, Q5_0, Q6_0].map (fun spec => (spec.name, spec)) ++ [("q4_0", INT4)]

/-- `KV_CACHE_DTYPES`, as the message lists them. -/
def kvCacheDtypes : String := ", ".intercalate (byName.map Prod.fst)

/-- `resolve_kv_quant`. -/
def resolveKvQuant (name : Option String) : Except String KVQuantSpec :=
  match name with
  | none => .ok NONE
  | some name =>
    match byName.lookup name with
    | some spec => .ok spec
    | none => .error s!"unknown --kv-cache-dtype '{name}'; choose from {kvCacheDtypes}"

/-- The integers that are codes of a format; those of a float format are its bit patterns. -/
def KVQuantSpec.InRange (spec : KVQuantSpec) (code : Int) : Prop :=
  match spec.storageDtype with
  | none => False
  | some .int8 => -127 ≤ code ∧ code ≤ 127
  | some .float8_e4m3fn => 0 ≤ code ∧ code < 256
  | some .uint8 => 0 ≤ code ∧ code < 2 ^ spec.bits

/-! ## The reference -/

abbrev Byte := BitVec 8

/-- A row of a tensor. -/
abbrev Row := Nat → Byte

/-- `row[..., start::step]`. -/
def strided (start step : Nat) (row : Row) : Row := fun i => row (start + i * step)

/-- The first `n` of a row. -/
def extent (n : Nat) (row : Row) : List Byte := (List.range n).map row

/-- The codes, in the eight bits they are cast to. -/
def castCodes (codes : List Int) : Row := fun i => BitVec.ofInt 8 (codes.getD i 0)

/-- Two adjacent low nibbles. -/
def lowPlane (q : Row) : Row := fun i =>
  (strided 0 2 q i &&& 0x0F#8) ||| ((strided 1 2 q i &&& 0x0F#8) <<< 4)

namespace KVQuantSpec

variable (spec : KVQuantSpec)

/-- The bytes that `quantize` makes of the codes of one head. -/
def quantize (codes : List Int) : List Byte :=
  let q := castCodes codes
  let d := codes.length
  if spec.bits = 4 then
    extent (d / 2) fun i => strided 0 2 q i ||| (strided 1 2 q i <<< 4)
  else if spec.bits = 5 then
    extent (d / 2) (lowPlane q) ++
      extent (d / 8) fun i =>
        ((List.range 8).map fun lane => ((strided lane 8 q i >>> 4) &&& 0x01#8) <<< lane).foldl
          (· + ·) 0
  else if spec.bits = 6 then
    extent (d / 2) (lowPlane q) ++
      extent (d / 4) fun i =>
        ((strided 0 4 q i >>> 4) &&& 0x03#8)
          ||| (((strided 1 4 q i >>> 4) &&& 0x03#8) <<< 2)
          ||| (((strided 2 4 q i >>> 4) &&& 0x03#8) <<< 4)
          ||| (((strided 3 4 q i >>> 4) &&& 0x03#8) <<< 6)
  else extent d q

/-- `torch.stack(parts, dim=-1).flatten(-2)` of `k` rows. -/
def stackFlatten (k : Nat) (parts : Nat → Row) : Row := fun j => parts (j % k) (j / k)

/-- The codes that `dequantize` unpacks from the bytes of a head of `d` elements. -/
def unpack (d : Nat) (payload : List Byte) : List Int :=
  let bytes : Row := fun i => payload.getD i 0
  let lower : Row := stackFlatten 2 fun lane i =>
    if lane = 0 then bytes i &&& 0x0F#8 else bytes i >>> 4
  let hi : Row := fun i => bytes (d / 2 + i)
  if spec.bits = 4 then (extent d lower).map fun c => (c.toNat : Int)
  else if spec.bits = 5 then
    let upper : Row := stackFlatten 8 fun lane i => (hi i >>> lane) &&& 0x01#8
    (extent d fun j => lower j ||| (upper j <<< 4)).map fun c => (c.toNat : Int)
  else if spec.bits = 6 then
    let upper : Row := stackFlatten 4 fun lane i =>
      if lane = 3 then hi i >>> 6 else (hi i >>> (2 * lane)) &&& 0x03#8
    (extent d fun j => lower j ||| (upper j <<< 4)).map fun c => (c.toNat : Int)
  else if spec.storageDtype = some .int8 then (extent d bytes).map BitVec.toInt
  else (extent d bytes).map fun c => (c.toNat : Int)

end KVQuantSpec

/-! ## The kernels -/

/-- An offset in the head's bytes, and the byte stored there. -/
abbrev Write := Nat × Byte

/-- What `_store_kv_quant_kernel` stores of one head of `nblock` blocks. -/
def fusedWrites (epb nblock : Nat) (q : Row) : List Write :=
  if epb = 2 then
    -- an even and an odd element become one byte, in `int8` arithmetic
    let pair := fun b i p => q (b * BLOCK + i * 2 + p)
    (List.range nblock).flatMap fun b => (List.range (BLOCK / 2)).map fun i =>
      (b * (BLOCK / 2) + i, pair b i 0 + pair b i 1 * 16)
  else
    (List.range nblock).flatMap fun b => (List.range BLOCK).map fun j =>
      (b * BLOCK + j, q (b * BLOCK + j))

/-- The low nibbles that `_store_one_quant_kernel` splits off. -/
def splitLow (q : Row) (i : Nat) : Byte :=
  let pair := fun r p => q (r * 2 + p)
  (pair i 0 &&& 15#8) ||| ((pair i 1 &&& 15#8) <<< 4)

/-- What `_store_one_quant_kernel` stores of one head of `nblock` blocks. -/
def oneWrites (bits nblock : Nat) (q : Row) : List Write :=
  let lows := (List.range (nblock * BLOCK / 2)).map fun i => (i, splitLow q i)
  if bits = 5 then
    lows ++ (List.range (nblock * BLOCK / 8)).map fun r =>
      -- the lanes are 32 bits wide, and so is the sum
      let lanes : List (BitVec 32) := (List.range 8).map fun lane =>
        ((q (r * 8 + lane) >>> 4) &&& 1#8).setWidth 32 <<< lane
      (nblock * BLOCK / 2 + r, (lanes.foldl (· + ·) 0).setWidth 8)
  else if bits = 6 then
    let quad := fun r i j => q (r * 4 + i * 2 + j)
    lows ++ (List.range (nblock * BLOCK / 4)).map fun r =>
      let q0 := quad r 0 0
      let q1 := quad r 0 1
      let q2 := quad r 1 0
      let q3 := quad r 1 1
      (nblock * BLOCK / 2 + r, ((q0 >>> 4) &&& 3#8) ||| (((q1 >>> 4) &&& 3#8) <<< 2) |||
        (((q2 >>> 4) &&& 3#8) <<< 4) ||| (((q3 >>> 4) &&& 3#8) <<< 6))
  else if bits = 4 then
    let pair := fun b i p => q (b * BLOCK + i * 2 + p)
    (List.range nblock).flatMap fun b => (List.range (BLOCK / 2)).map fun i =>
      (b * (BLOCK / 2) + i, pair b i 0 ||| (pair b i 1 <<< 4))
  else
    (List.range nblock).flatMap fun b => (List.range BLOCK).map fun j =>
      (b * BLOCK + j, q (b * BLOCK + j))

/-- The kernel that stores a side. -/
inductive Path where
  | fused
  | oneEach
deriving DecidableEq

/-- Which kernels `store_kv_quant` launches for a head dimension. -/
def storeKvQuant (headDim : Nat) (spec vSpec : KVQuantSpec) : Except String Path :=
  if headDim % BLOCK ≠ 0 then .error s!"head_dim {headDim} not a multiple of {BLOCK}"
  else if vSpec ≠ spec ∨ spec.bits = 6 then .ok .oneEach
  else if spec.bits ≠ 4 ∧ spec.bits ≠ 8 then
    .error "symmetric q6 uses the asymmetric-capable store path"
  else .ok .fused

/-- What a path stores of the codes of one head. -/
def Path.writes (path : Path) (spec : KVQuantSpec) (codes : List Int) : List Write :=
  match path with
  | .fused => fusedWrites (8 / spec.bits) (codes.length / BLOCK) (castCodes codes)
  | .oneEach => oneWrites spec.bits (codes.length / BLOCK) (castCodes codes)

/-! ## Tiles -/

/-- A tile that is stored row by row is stored in order. -/
theorem flatMap_tile {α : Type} (f : Nat → α) (rows m : Nat) :
    ((List.range rows).flatMap fun b => (List.range m).map fun i => f (b * m + i)) =
      (List.range (rows * m)).map f := by
  induction rows with
  | zero => simp
  | succ rows ih =>
    rw [List.range_succ, List.flatMap_append, ih, Nat.succ_mul, List.range_add, List.map_append]
    simp

/-- Stores in order, and what is stored. -/
def inOrder (bytes : List Byte) : List Write := (List.range bytes.length).zip bytes

theorem inOrder_fst (bytes : List Byte) : (inOrder bytes).map Prod.fst = List.range bytes.length :=
  List.map_fst_zip (by simp)

theorem inOrder_snd (bytes : List Byte) : (inOrder bytes).map Prod.snd = bytes :=
  List.map_snd_zip (by simp)

theorem inOrder_extent (n : Nat) (row : Row) :
    inOrder (extent n row) = (List.range n).map fun i => (i, row i) := by
  unfold inOrder extent
  rw [List.length_map, List.length_range]
  apply List.ext_getElem
  · simp
  · intro i h h'
    simp

theorem inOrder_append (n m : Nat) (row row' : Row) :
    inOrder (extent n row ++ extent m row') =
      ((List.range n).map fun i => (i, row i)) ++ (List.range m).map fun i => (n + i, row' i) := by
  rw [← inOrder_extent]
  unfold inOrder
  have hn : (extent n row).length = n := by simp [extent]
  have hm : (extent m row').length = m := by simp [extent]
  rw [List.length_append, hn, hm, List.range_add, List.zip_append (by rw [List.length_range, hn])]
  congr 1
  unfold extent
  apply List.ext_getElem
  · simp
  · intro i h h'
    simp

/-! ## The kernels write the reference's bytes -/

section Kernels

variable (spec : KVQuantSpec) {codes : List Int} {nblock : Nat}

theorem strided_eq (start step : Nat) (q : Row) (i : Nat) :
    strided start step q i = q (i * step + start) := by
  rw [strided, Nat.add_comm]

theorem splitLow_eq (q : Row) : splitLow q = lowPlane q := by
  funext i
  simp only [splitLow, lowPlane, strided_eq, Nat.add_zero]

/-- The element-shaped stores. -/
theorem elementWrites_eq (q : Row) :
    ((List.range nblock).flatMap fun b => (List.range BLOCK).map fun j =>
      ((b * BLOCK + j, q (b * BLOCK + j)) : Write)) = inOrder (extent (nblock * BLOCK) q) := by
  rw [flatMap_tile (fun i => (i, q i)), inOrder_extent]

/-- Nibbles in pairs, whatever puts two of them together. -/
theorem pairWrites_eq (q : Row) (pack : Byte → Byte → Byte) :
    ((List.range nblock).flatMap fun b => (List.range (BLOCK / 2)).map fun i =>
      ((b * (BLOCK / 2) + i, pack (q (b * BLOCK + i * 2 + 0)) (q (b * BLOCK + i * 2 + 1))) :
        Write)) =
      inOrder (extent (nblock * BLOCK / 2) fun i => pack (strided 0 2 q i) (strided 1 2 q i)) := by
  have hindex : ∀ b i, b * BLOCK + i * 2 = (b * (BLOCK / 2) + i) * 2 := by
    intro b i
    unfold BLOCK
    omega
  have hextent : nblock * BLOCK / 2 = nblock * (BLOCK / 2) := by
    unfold BLOCK
    omega
  rw [inOrder_extent, hextent, ← flatMap_tile
    (fun i => ((i, pack (strided 0 2 q i) (strided 1 2 q i)) : Write))]
  simp only [hindex, strided_eq]

/-- What the wider sum loses the bytes lose too. -/
theorem laneSum (lane : Nat → Byte) :
    (((List.range 8).map fun k => (lane k).setWidth 32 <<< k).foldl
      (· + ·) (0 : BitVec 32)).setWidth 8 =
      ((List.range 8).map fun k => lane k <<< k).foldl (· + ·) 0 := by
  simp [List.range_succ, BitVec.setWidth_add]

/-- **The kernel of one side writes what the reference does**, each byte once and in order. -/
theorem oneWrites_eq (hlen : codes.length = nblock * BLOCK) :
    oneWrites spec.bits nblock (castCodes codes) = inOrder (spec.quantize codes) := by
  unfold oneWrites KVQuantSpec.quantize
  simp only [hlen]
  by_cases h5 : spec.bits = 5
  · rw [if_pos h5, if_neg (by omega), if_pos h5, inOrder_append, splitLow_eq]
    congr 1
    refine List.map_congr_left fun r _ => ?_
    rw [laneSum fun lane => (castCodes codes (r * 8 + lane) >>> 4) &&& 1#8]
    simp only [strided_eq]
  · rw [if_neg h5]
    by_cases h6 : spec.bits = 6
    · rw [if_pos h6, if_neg (by omega), if_neg h5, if_pos h6, inOrder_append, splitLow_eq]
      congr 1
      refine List.map_congr_left fun r _ => ?_
      simp only [strided_eq, Nat.zero_mul, Nat.add_zero, Nat.one_mul, Nat.add_assoc]
    · rw [if_neg h6]
      by_cases h4 : spec.bits = 4
      · rw [if_pos h4, if_pos h4]
        exact pairWrites_eq _ fun even odd => even ||| (odd <<< 4)
      · rw [if_neg h4, if_neg h4, if_neg h5, if_neg h6]
        exact elementWrites_eq _

end Kernels

/-! ## Bytes and their fields -/

section Fields

/-- A bit, as a byte. -/
def bitByte (b : Bool) : Byte := (BitVec.ofBool b).setWidth 8

/-- The fields of a byte, checked on each of the bytes. -/
theorem byte_fields (c : Byte) :
    (c &&& 0x0F#8 = (c.setWidth 4).setWidth 8 ∧
      (c >>> 4) &&& 1#8 = bitByte (c.getLsbD 4) ∧
      (c >>> 4) &&& 0x03#8 = (c.extractLsb' 4 2).setWidth 8) ∧
    (c < 16 → (c.setWidth 4).setWidth 8 = c) ∧
    (c < 32 → (c &&& 0x0F#8) ||| (((c >>> 4) &&& 0x01#8) <<< 4) = c) ∧
    (c < 64 → (c &&& 0x0F#8) ||| (((c >>> 4) &&& 0x03#8) <<< 4) = c) := by
  revert c
  decide +kernel

theorem nibble_eq (c : Byte) : c &&& 0x0F#8 = (c.setWidth 4).setWidth 8 := (byte_fields c).1.1

theorem bit_eq (c : Byte) : (c >>> 4) &&& 1#8 = bitByte (c.getLsbD 4) := (byte_fields c).1.2.1

theorem field_eq (c : Byte) : (c >>> 4) &&& 0x03#8 = (c.extractLsb' 4 2).setWidth 8 :=
  (byte_fields c).1.2.2

theorem nibble_of_lt (c : Byte) (h : c < 16) : (c.setWidth 4).setWidth 8 = c :=
  (byte_fields c).2.1 h

theorem five_bits (c : Byte) (h : c < 32) : (c &&& 0x0F#8) ||| (((c >>> 4) &&& 0x01#8) <<< 4) = c :=
  (byte_fields c).2.2.1 h

theorem six_bits (c : Byte) (h : c < 64) : (c &&& 0x0F#8) ||| (((c >>> 4) &&& 0x03#8) <<< 4) = c :=
  (byte_fields c).2.2.2 h

/-- Two nibbles in a byte: adding them is joining them, and each comes back. -/
theorem pair_fields (e o : BitVec 4) :
    e.setWidth 8 + o.setWidth 8 * 16 = (e.setWidth 8 ||| (o.setWidth 8 <<< 4) : Byte) ∧
    (e.setWidth 8 ||| (o.setWidth 8 <<< 4 : Byte)) &&& 0x0F#8 = e.setWidth 8 ∧
    (e.setWidth 8 ||| (o.setWidth 8 <<< 4 : Byte)) >>> 4 = o.setWidth 8 := by
  revert e o
  decide +kernel

theorem pair_add (e o : BitVec 4) :
    e.setWidth 8 + o.setWidth 8 * 16 = e.setWidth 8 ||| (o.setWidth 8 <<< 4 : Byte) :=
  (pair_fields e o).1

theorem pair_low (e o : BitVec 4) :
    (e.setWidth 8 ||| (o.setWidth 8 <<< 4 : Byte)) &&& 0x0F#8 = e.setWidth 8 :=
  (pair_fields e o).2.1

theorem pair_high (e o : BitVec 4) :
    (e.setWidth 8 ||| (o.setWidth 8 <<< 4 : Byte)) >>> 4 = o.setWidth 8 := (pair_fields e o).2.2

theorem lane_bits (b0 b1 b2 b3 b4 b5 b6 b7 : Bool) : ∀ lane < 8,
    (((0 : Byte) + bitByte b0 <<< 0 + bitByte b1 <<< 1 + bitByte b2 <<< 2 + bitByte b3 <<< 3 +
      bitByte b4 <<< 4 + bitByte b5 <<< 5 + bitByte b6 <<< 6 + bitByte b7 <<< 7) >>> lane) &&& 1#8 =
      bitByte ([b0, b1, b2, b3, b4, b5, b6, b7].getD lane false) := by
  revert b0 b1 b2 b3 b4 b5 b6 b7
  decide +kernel

/-- A lane of the bit plane. -/
theorem lane_bit (b : Nat → Byte) (lane : Nat) (hlane : lane < 8) :
    (((List.range 8).map fun k => ((b k >>> 4) &&& 0x01#8) <<< k).foldl (· + ·) 0 >>> lane) &&&
      0x01#8 = (b lane >>> 4) &&& 0x01#8 := by
  have hget : ((List.range 8).map fun k => (b k).getLsbD 4).getD lane false =
      (b lane).getLsbD 4 := by
    simp [List.getD_eq_getElem?_getD, hlane]
  have hrange : List.range 8 = [0, 1, 2, 3, 4, 5, 6, 7] := rfl
  rw [hrange] at hget ⊢
  simp only [List.map_cons, List.map_nil, List.foldl_cons, List.foldl_nil, bit_eq] at hget ⊢
  rw [lane_bits _ _ _ _ _ _ _ _ lane hlane, hget]

/-- A lane of the two-bit plane. -/
theorem lane_field (q0 q1 q2 q3 : BitVec 2) (lane : Nat) (hlane : lane < 4) :
    (if lane = 3 then (q0.setWidth 8 ||| (q1.setWidth 8 <<< 2) ||| (q2.setWidth 8 <<< 4) |||
        (q3.setWidth 8 <<< 6) : Byte) >>> 6
      else ((q0.setWidth 8 ||| (q1.setWidth 8 <<< 2) ||| (q2.setWidth 8 <<< 4) |||
        (q3.setWidth 8 <<< 6) : Byte) >>> (2 * lane)) &&& 0x03#8) =
      ([q0, q1, q2, q3].getD lane 0).setWidth 8 := by
  have hall : ∀ q0 q1 q2 q3 : BitVec 2, ∀ lane < 4,
      (if lane = 3 then (q0.setWidth 8 ||| (q1.setWidth 8 <<< 2) ||| (q2.setWidth 8 <<< 4) |||
        (q3.setWidth 8 <<< 6) : Byte) >>> 6
      else ((q0.setWidth 8 ||| (q1.setWidth 8 <<< 2) ||| (q2.setWidth 8 <<< 4) |||
        (q3.setWidth 8 <<< 6) : Byte) >>> (2 * lane)) &&& 0x03#8) =
      ([q0, q1, q2, q3].getD lane 0).setWidth 8 := by
    decide +kernel
  exact hall q0 q1 q2 q3 lane hlane

end Fields

/-! ## What comes back -/

section RoundTrip

variable (spec : KVQuantSpec) {codes : List Int} {nblock : Nat}

theorem getD_extent {n i : Nat} (row : Row) (h : i < n) : (extent n row).getD i 0 = row i := by
  simp [extent, List.getD_eq_getElem?_getD, h]

theorem getD_planes {n m i : Nat} (row row' : Row) (h : i < m) :
    (extent n row ++ extent m row').getD (n + i) 0 = row' i := by
  simp [extent, List.getD_eq_getElem?_getD, h]

theorem getD_low {n m i : Nat} (row row' : Row) (h : i < n) :
    (extent n row ++ extent m row').getD i 0 = row i := by
  simp [extent, List.getD_eq_getElem?_getD, List.getElem?_append, h]

/-- The nibbles of the low plane come back. -/
theorem lowPlane_lane (q : Row) (j : Nat) :
    (if j % 2 = 0 then lowPlane q (j / 2) &&& 0x0F#8 else lowPlane q (j / 2) >>> 4) =
      q j &&& 0x0F#8 := by
  simp only [lowPlane, strided_eq, nibble_eq, Nat.add_zero]
  split
  · rename_i h
    rw [← nibble_eq, pair_low, show j / 2 * 2 = j by omega]
  · rename_i h
    rw [pair_high, show j / 2 * 2 + 1 = j by omega]

/-- The codes in the bytes they were cast to. -/
theorem map_castCodes {back : Byte → Int}
    (h : ∀ c ∈ codes, back (BitVec.ofInt 8 c) = c) :
    (extent codes.length (castCodes codes)).map back = codes := by
  apply List.ext_getElem
  · simp [extent]
  · intro i hi hi'
    simp only [extent, castCodes, List.getElem_map, List.getElem_range]
    rw [List.getD_eq_getElem?_getD, List.getElem?_eq_getElem hi', Option.getD_some]
    exact h _ (List.getElem_mem _)

theorem extent_congr {n : Nat} {row row' : Row} (h : ∀ j < n, row j = row' j) :
    extent n row = extent n row' :=
  List.map_congr_left fun j hj => h j (List.mem_range.mp hj)

theorem toNat_ofInt {c : Int} (h : 0 ≤ c) (h' : c < 256) : ((BitVec.ofInt 8 c).toNat : Int) = c := by
  rw [BitVec.toNat_ofInt]
  omega

theorem toInt_ofInt {c : Int} (h : -127 ≤ c) (h' : c ≤ 127) : (BitVec.ofInt 8 c).toInt = c := by
  rw [BitVec.toInt_ofInt]
  exact Int.bmod_eq_of_le (by omega) (by omega)

/-- The bytes of codes that are small. -/
theorem castCodes_lt {n : Nat} (hn : 0 < n) (hn' : n < 256)
    (h : ∀ c ∈ codes, 0 ≤ c ∧ c < n) (i : Nat) : castCodes codes i < BitVec.ofNat 8 n := by
  have hzero : 0 ≤ codes.getD i 0 ∧ codes.getD i 0 < n := by
    rw [List.getD_eq_getElem?_getD]
    cases hi : codes[i]? with
    | none => exact ⟨Int.le_refl 0, by simpa using hn⟩
    | some c => exact h c (List.mem_of_getElem? hi)
  rw [castCodes, BitVec.lt_def, BitVec.toNat_ofInt, BitVec.toNat_ofNat]
  omega

theorem unpack_four (hbits : spec.bits = 4) (hlen : codes.length = nblock * BLOCK)
    (h : ∀ c ∈ codes, 0 ≤ c ∧ c < 16) : spec.unpack codes.length (spec.quantize codes) = codes := by
  have hlt := castCodes_lt (n := 16) (by omega) (by omega) (by simpa using h)
  unfold KVQuantSpec.unpack KVQuantSpec.quantize
  simp only [if_pos hbits]
  rw [@extent_congr _ _ (castCodes codes), map_castCodes]
  · intro c hc
    have := h c hc
    exact toNat_ofInt (by omega) (by omega)
  · intro j hj
    unfold BLOCK at hlen
    have hpair : ∀ i, castCodes codes i = ((castCodes codes i).setWidth 4).setWidth 8 :=
      fun i => (nibble_of_lt _ (hlt i)).symm
    simp only [KVQuantSpec.stackFlatten]
    rw [getD_extent _ (by omega)]
    simp only [strided_eq, Nat.add_zero]
    rw [hpair (j / 2 * 2), hpair (j / 2 * 2 + 1)]
    split
    · rw [pair_low, ← hpair, show j / 2 * 2 = j by omega]
    · rw [pair_high, ← hpair, show j / 2 * 2 + 1 = j by omega]

theorem unpack_five (hbits : spec.bits = 5) (hlen : codes.length = nblock * BLOCK)
    (h : ∀ c ∈ codes, 0 ≤ c ∧ c < 32) : spec.unpack codes.length (spec.quantize codes) = codes := by
  have hlt := castCodes_lt (n := 32) (by omega) (by omega) (by simpa using h)
  unfold KVQuantSpec.unpack KVQuantSpec.quantize
  simp only [if_neg (show ¬spec.bits = 4 by omega), if_pos hbits]
  rw [@extent_congr _ _ (castCodes codes), map_castCodes]
  · intro c hc
    have := h c hc
    exact toNat_ofInt (by omega) (by omega)
  · intro j hj
    unfold BLOCK at hlen
    simp only [KVQuantSpec.stackFlatten]
    rw [getD_low _ _ (by omega), getD_planes _ _ (by omega), lowPlane_lane,
      lane_bit (fun lane => strided lane 8 (castCodes codes) (j / 8)) _ (Nat.mod_lt _ (by omega)),
      strided_eq, show j / 8 * 8 + j % 8 = j by omega]
    exact five_bits _ (hlt j)

theorem unpack_six (hbits : spec.bits = 6) (hlen : codes.length = nblock * BLOCK)
    (h : ∀ c ∈ codes, 0 ≤ c ∧ c < 64) : spec.unpack codes.length (spec.quantize codes) = codes := by
  have hlt := castCodes_lt (n := 64) (by omega) (by omega) (by simpa using h)
  unfold KVQuantSpec.unpack KVQuantSpec.quantize
  simp only [if_neg (show ¬spec.bits = 4 by omega), if_neg (show ¬spec.bits = 5 by omega),
    if_pos hbits]
  rw [@extent_congr _ _ (castCodes codes), map_castCodes]
  · intro c hc
    have := h c hc
    exact toNat_ofInt (by omega) (by omega)
  · intro j hj
    unfold BLOCK at hlen
    simp only [KVQuantSpec.stackFlatten]
    rw [getD_low _ _ (by omega), getD_planes _ _ (by omega), lowPlane_lane]
    simp only [field_eq, strided_eq]
    rw [lane_field _ _ _ _ _ (Nat.mod_lt _ (by omega))]
    have hlane : ([0, 1, 2, 3].map fun lane =>
        (castCodes codes (j / 4 * 4 + lane)).extractLsb' 4 2).getD (j % 4) 0 =
        (castCodes codes (j / 4 * 4 + j % 4)).extractLsb' 4 2 := by
      have : j % 4 < 4 := Nat.mod_lt _ (by omega)
      generalize j % 4 = lane at this ⊢
      show ((List.range 4).map fun lane =>
        (castCodes codes (j / 4 * 4 + lane)).extractLsb' 4 2).getD lane 0 = _
      simp [List.getD_eq_getElem?_getD, this]
    have hback : castCodes codes j &&& 0x0F#8 ||| ((castCodes codes j).extractLsb' 4 2).setWidth 8 <<< 4 =
        castCodes codes j := by
      rw [← field_eq]
      exact six_bits _ (hlt j)
    rw [show j / 4 * 4 + j % 4 = j by omega] at hlane
    rw [← hback]
    congr 2
    exact congrArg (BitVec.setWidth 8) hlane

end RoundTrip

/-! ## Every pair of formats -/

section Formats

variable {spec k v : KVQuantSpec} {codes : List Int} {nblock : Nat}

/-- **The kernel of a shared format writes what the reference does**, each byte once and in
order. -/
theorem fusedWrites_eq (hbits : spec.bits = 4 ∨ spec.bits = 8)
    (hlen : codes.length = nblock * BLOCK)
    (h : spec.bits = 4 → ∀ c ∈ codes, 0 ≤ c ∧ c < 16) :
    fusedWrites (8 / spec.bits) nblock (castCodes codes) = inOrder (spec.quantize codes) := by
  unfold fusedWrites KVQuantSpec.quantize
  simp only [hlen]
  rcases hbits with h4 | h8
  · have hlt := castCodes_lt (n := 16) (by omega) (by omega) (by simpa using h h4)
    have hpair : ∀ e o, castCodes codes e + castCodes codes o * (16 : Byte) =
        castCodes codes e ||| (castCodes codes o <<< 4) := by
      intro e o
      rw [← nibble_of_lt _ (hlt e), ← nibble_of_lt _ (hlt o)]
      exact pair_add _ _
    rw [if_pos (by rw [h4]), if_pos h4]
    simp only [hpair]
    exact pairWrites_eq _ fun even odd => even ||| (odd <<< 4)
  · rw [if_neg (by rw [h8]; decide), if_neg (by omega), if_neg (by omega), if_neg (by omega)]
    exact elementWrites_eq _

/-- What a name resolves to is one of the formats. -/
theorem resolve_mem {name : Option String} (h : resolveKvQuant name = .ok spec) :
    spec ∈ [NONE, Q8_0, FP8_E4M3, INT4, Q5_0, Q6_0] := by
  unfold resolveKvQuant at h
  split at h
  · rw [← Except.ok.inj h]
    simp
  · split at h
    · rename_i name _ found hfound
      rw [← Except.ok.inj h]
      have hmem : ∀ entry ∈ byName, entry.2 ∈ [NONE, Q8_0, FP8_E4M3, INT4, Q5_0, Q6_0] := by decide
      obtain ⟨before, after, hsplit, -⟩ := List.lookup_eq_some_iff.mp hfound
      exact hmem (name, found) (by rw [hsplit]; simp)
    · cases h

/-- **The codes come back.** -/
theorem unpack_quantize (hspec : spec ∈ [NONE, Q8_0, FP8_E4M3, INT4, Q5_0, Q6_0])
    (hlen : codes.length = nblock * BLOCK) (h : ∀ c ∈ codes, spec.InRange c) :
    spec.unpack codes.length (spec.quantize codes) = codes := by
  simp only [List.mem_cons, List.not_mem_nil, or_false] at hspec
  rcases hspec with rfl | rfl | rfl | rfl | rfl | rfl
  · cases codes with
    | nil => rfl
    | cons c codes => exact (h c List.mem_cons_self).elim
  · show (extent codes.length fun i => (extent codes.length (castCodes codes)).getD i 0).map
      BitVec.toInt = codes
    rw [extent_congr fun j hj => getD_extent _ hj]
    exact map_castCodes fun c hc => toInt_ofInt (h c hc).1 (h c hc).2
  · show (extent codes.length fun i => (extent codes.length (castCodes codes)).getD i 0).map
      (fun c => (c.toNat : Int)) = codes
    rw [extent_congr fun j hj => getD_extent _ hj]
    exact map_castCodes fun c hc => toNat_ofInt (h c hc).1 (h c hc).2
  · exact unpack_four INT4 rfl hlen h
  · exact unpack_five Q5_0 rfl hlen h
  · exact unpack_six Q6_0 rfl hlen h

theorem quantize_length (hbits : spec.bits ∈ [4, 5, 6, 8]) (hlen : codes.length = nblock * BLOCK) :
    (spec.quantize codes).length = codes.length * spec.bits / 8 := by
  unfold KVQuantSpec.quantize
  unfold BLOCK at hlen
  simp only [List.mem_cons, List.not_mem_nil, or_false] at hbits
  rcases hbits with h | h | h | h <;> simp [h, extent] <;> omega

theorem bits_mem (hspec : spec ∈ [NONE, Q8_0, FP8_E4M3, INT4, Q5_0, Q6_0]) :
    spec.bits ∈ [4, 5, 6, 8] := by
  revert spec
  decide

theorem storageDim_eq_ok {logical storage : Nat} :
    spec.storageDim logical = .ok storage ↔ logical * spec.bits = storage * 8 := by
  unfold KVQuantSpec.storageDim
  split
  · constructor
    · intro h
      cases h
    · intro h
      omega
  · rw [Except.ok.injEq]
    omega

theorem logicalDim_eq_ok (hbits : 0 < spec.bits) {logical storage : Nat} :
    spec.logicalDim storage = .ok logical ↔ logical * spec.bits = storage * 8 := by
  unfold KVQuantSpec.logicalDim
  split
  · rename_i hmod
    constructor
    · intro h
      cases h
    · intro h
      rw [← h, Nat.mul_mod_left] at hmod
      exact absurd rfl hmod
  · rename_i hmod
    rw [Except.ok.injEq]
    constructor
    · rintro rfl
      exact Nat.div_mul_cancel (Nat.dvd_of_mod_eq_zero (not_not.mp hmod))
    · intro h
      rw [← h, Nat.mul_div_cancel _ hbits]

/-- A side of the store: its bytes are the reference's, each is written once, and the codes come
back. -/
def Survives (path : Path) (spec : KVQuantSpec) (headDim : Nat) : Prop :=
  (∃ storage, spec.storageDim headDim = .ok storage ∧
    ∀ codes : List Int, codes.length = headDim → (∀ c ∈ codes, spec.InRange c) →
      (path.writes spec codes).map Prod.fst = List.range storage ∧
      (path.writes spec codes).map Prod.snd = spec.quantize codes ∧
      spec.unpack headDim (spec.quantize codes) = codes) ∧
  -- the extents are inverse
  ∀ logical storage, spec.storageDim logical = .ok storage ↔ spec.logicalDim storage = .ok logical

theorem survives (hspec : spec ∈ [NONE, Q8_0, FP8_E4M3, INT4, Q5_0, Q6_0]) {path : Path}
    (hpath : path = .fused → spec.bits = 4 ∨ spec.bits = 8) {headDim : Nat} (hdim : BLOCK ∣ headDim) :
    Survives path spec headDim := by
  obtain ⟨nblock, rfl⟩ := hdim
  rw [Nat.mul_comm]
  have hbits := bits_mem hspec
  have hpos : 0 < spec.bits := by
    simp only [List.mem_cons, List.not_mem_nil, or_false] at hbits
    omega
  have hwhole : nblock * BLOCK * spec.bits = nblock * BLOCK * spec.bits / 8 * 8 := by
    unfold BLOCK
    rw [Nat.mul_right_comm]
    omega
  refine ⟨⟨_, storageDim_eq_ok.mpr hwhole, fun codes hlen hrange => ?_⟩,
    fun logical storage => storageDim_eq_ok.trans (logicalDim_eq_ok hpos).symm⟩
  have hblocks : codes.length / BLOCK = nblock := by
    rw [hlen]
    exact Nat.mul_div_cancel _ (by decide)
  have hwrites : path.writes spec codes = inOrder (spec.quantize codes) := by
    cases path with
    | oneEach =>
      rw [Path.writes, hblocks]
      exact oneWrites_eq spec hlen
    | fused =>
      rw [Path.writes, hblocks]
      refine fusedWrites_eq (hpath rfl) hlen fun h4 c hc => ?_
      have hin := hrange c hc
      simp only [List.mem_cons, List.not_mem_nil, or_false] at hspec
      -- the one format of four bits
      rcases hspec with rfl | rfl | rfl | rfl | rfl | rfl
      case inr.inr.inr.inl => exact hin
      all_goals cases h4
  rw [hwrites, inOrder_fst, inOrder_snd, quantize_length hbits hlen, hlen]
  exact ⟨rfl, rfl, hlen ▸ unpack_quantize hspec hlen hrange⟩

end Formats

/-! ## The store -/

end FreeToken.KvCache
