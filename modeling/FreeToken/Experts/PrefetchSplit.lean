import FreeToken.Lib.Reach
import FreeToken.Lib.Spans
import Mathlib.Data.List.GetD
import Mathlib.Logic.Function.Basic

/-!
# Prefill layers assembled from hits and misses

`OffloadMoeCache._prefetch_split`: a half of the double buffer is filled with one layer. The experts
on slots above the buffer are gathered on the compute stream, by the live slot map, and the others
come from the host on the copy stream, by the slot map as it was when the chunk began. Main results:

* `CopyPlan.batchSpans_writes`, `CopyPlan.batchSpans_cover`: the entries of a batch write the rows
  that they serve, and nothing else.
* `Chunk.Inv.step`: what each step of either stream keeps.
* `prefetch_split_assembled`: between its wait and its release a layer is complete, where no bank
  has small rows of more than one size.
* `padded_hit_lost`: where one has, a hit keeps what the buffer held before.
-/

namespace FreeToken.Experts

open FreeToken.Lib Function

variable {ι β : Type}

/-- `_SMALL_BANK_FEAT_BYTES`. -/
def SMALL_BANK_FEAT_BYTES : Nat := 256 * 1024

/-! ## The copy plan -/

/-- The fused copy plan: the banks and their rows, and what the host has. A bank whose layers have
rows of different sizes keeps each in the front of a row of the largest size. -/
structure CopyPlan (ι β : Type) where
  numExperts : Nat
  dstStride : ι → Nat
  /-- The row of a layer, also its stride on the host. -/
  feat : ι → Nat → Nat
  fits : ∀ b layer, feat b layer ≤ dstStride b
  /-- The host's bytes of a layer. -/
  source : ι → Nat → Nat → β

namespace CopyPlan

variable (c : CopyPlan ι β)

/-- The slots from the buffer on; `none` is the entry -1. -/
def isHit (slot : Option Nat) : Bool := slot.any fun s => decide (2 * c.numExperts ≤ s)

/-- `_gather_bank_ids`. -/
def Gathered (b : ι) : Prop := SMALL_BANK_FEAT_BYTES ≤ c.dstStride b

instance (b : ι) : Decidable (c.Gathered b) := inferInstanceAs (Decidable (_ ≤ _))

/-- A bank of which each layer is one entry. -/
def Whole (b : ι) (layer : Nat) : Prop :=
  c.feat b layer < SMALL_BANK_FEAT_BYTES ∧ c.feat b layer = c.dstStride b

instance (b : ι) (layer : Nat) : Decidable (c.Whole b layer) := inferInstanceAs (Decidable (_ ∧ _))

/-- `_prefill_hit_compact_kernel`: buffer row and slot of each hit, in the order of the experts. -/
def hitCompact (half : Nat) (slots : Nat → Option Nat) : List (Nat × Nat) :=
  (List.range c.numExperts).filterMap fun e =>
    (slots e).bind fun s =>
      if 2 * c.numExperts ≤ s then some (half * c.numExperts + e, s) else none

/-- The misses of a row of the snapshot. -/
def misses (slots : Nat → Option Nat) : List Nat :=
  (List.range c.numExperts).filter fun e => !c.isHit (slots e)

/-- The rows that the gather moves within a bank. -/
def gatherSpans (b : ι) (hits : List (Nat × Nat)) : List Span :=
  hits.map fun p => ⟨p.1 * c.dstStride b, p.2 * c.dstStride b, c.dstStride b⟩

/-- The entries of one bank in the batch that comes from the host. -/
def batchSpans (b : ι) (layer half : Nat) (slots : Nat → Option Nat) : List Span :=
  let base := half * c.numExperts
  let feat := c.feat b layer
  -- the whole layer, also without a miss: it covers the hits that the gather skips
  if c.Whole b layer then [⟨base * c.dstStride b, 0, c.numExperts * feat⟩]
  else if feat = c.dstStride b then
    (runs (c.misses slots)).map fun r =>
      ⟨(base + r.1) * c.dstStride b, r.1 * feat, r.2 * feat⟩
  else
    (c.misses slots).map fun e => ⟨(base + e) * c.dstStride b, e * feat, feat⟩

end CopyPlan

/-! ## A chunk on two streams -/

/-- A chunk: what `begin_prefill` took, and the layers in the order in which they are filled. -/
structure Chunk (ι β : Type) extends CopyPlan ι β where
  snapshot : Nat → Nat → Option Nat
  layers : Nat → Nat

/-- How far each stream is, in fills, and what they share. -/
structure ChunkState (ι β : Type) where
  slotForId : Nat → Nat → Option Nat
  idOfSlot : Nat → Option (Nat × Nat)
  mem : ι → Nat → β
  /-- `_prefill_hit_dst` and `_prefill_hit_src`. -/
  hits : List (Nat × Nat) := []
  compacted : Nat := 0
  gathered : Nat := 0
  waited : Nat := 0
  released : Nat := 0
  /-- The slots of the half that are invalidated so far. -/
  vacated : Nat := 0
  copied : Nat := 0

/-- The first four are the compute stream's, the others the copy stream's. -/
inductive PrefetchOp where
  | compact
  | gather
  | wait
  | release
  | invalidate
  | copy
deriving DecidableEq

namespace Chunk

variable (c : Chunk ι β)

/-- `layer_id % 2`. -/
def half (k : Nat) : Nat := c.layers k % 2

/-- Every earlier fill of the half is released: the host asserts it before it enqueues a fill, and
the copy stream waits for the event. -/
def Free (s : ChunkState ι β) (k : Nat) : Prop :=
  ∀ k' < k, c.half k' = c.half k → k' < s.released

instance (s : ChunkState ι β) (k : Nat) : Decidable (c.Free s k) :=
  inferInstanceAs (Decidable (∀ _ < k, _))

/-- A step of either stream; `none` where it has to wait. -/
def step (s : ChunkState ι β) : PrefetchOp → Option (ChunkState ι β)
  | .compact =>
    let k := s.compacted
    if k = s.gathered ∧ c.Free s k then
      some { s with
        hits := c.hitCompact (c.half k) (s.slotForId (c.layers k))
        compacted := k + 1 }
    else none
  | .gather =>
    if s.gathered < s.compacted then
      some { s with
        mem := fun b =>
          if c.Gathered b then copySpans (s.mem b) (c.gatherSpans b s.hits) (s.mem b) else s.mem b
        gathered := s.gathered + 1 }
    else none
  -- the ready event is recorded behind the copy
  | .wait =>
    if s.waited < s.gathered ∧ s.waited < s.copied then some { s with waited := s.waited + 1 }
    else none
  | .release =>
    if s.released < s.waited then some { s with released := s.released + 1 } else none
  | .invalidate =>
    let slot := c.half s.copied * c.numExperts + s.vacated
    if s.vacated < c.numExperts ∧ c.Free s s.copied then
      some { s with
        slotForId := match s.idOfSlot slot with
          | none => s.slotForId
          | some id => update s.slotForId id.1 (update (s.slotForId id.1) id.2 none)
        idOfSlot := update s.idOfSlot slot none
        vacated := s.vacated + 1 }
    else none
  | .copy =>
    let k := s.copied
    if s.vacated = c.numExperts ∧ c.Free s k then
      some { s with
        mem := fun b =>
          copySpans (c.source b (c.layers k))
            (c.batchSpans b (c.layers k) (c.half k) (c.snapshot (c.layers k))) (s.mem b)
        vacated := 0
        copied := k + 1 }
    else none

/-- What the chunk begins with: the snapshot is the slot map, which agrees with its inverse, and a
slot above the buffer has its expert's bytes in every bank. -/
structure Begins (s : ChunkState ι β) : Prop where
  map : s.slotForId = c.snapshot
  ids : ∀ slot layer e, s.idOfSlot slot = some (layer, e) → c.snapshot layer e = some slot
  bytes : ∀ b layer e slot, c.snapshot layer e = some slot → 2 * c.numExperts ≤ slot →
    ∀ i < c.feat b layer,
      s.mem b (slot * c.dstStride b + i) = c.source b layer (e * c.feat b layer + i)
  compacted : s.compacted = 0
  gathered : s.gathered = 0
  waited : s.waited = 0
  released : s.released = 0
  vacated : s.vacated = 0
  copied : s.copied = 0

/-- A row of the half has the bytes of its expert. -/
def RowFilled (mem : ι → Nat → β) (k : Nat) (b : ι) (e : Nat) : Prop :=
  ∀ i < c.feat b (c.layers k),
    mem b ((c.half k * c.numExperts + e) * c.dstStride b + i) =
      c.source b (c.layers k) (e * c.feat b (c.layers k) + i)

/-- The half of a fill is complete. -/
def Filled (mem : ι → Nat → β) (k : Nat) : Prop :=
  ∀ b, ∀ e < c.numExperts, c.RowFilled mem k b e

end Chunk

/-! ## Rows and addresses -/

/-- An address within a row names the row. -/
theorem row_unique {stride r r' i i' : Nat} (hi : i < stride) (hi' : i' < stride)
    (h : r * stride + i = r' * stride + i') : r = r' ∧ i = i' := by
  have hpos : 0 < stride := by omega
  have hr : r = r' := by
    have hdiv := congrArg (· / stride) h
    simp only [Nat.mul_comm _ stride, Nat.mul_add_div hpos, Nat.div_eq_of_lt hi,
      Nat.div_eq_of_lt hi', Nat.add_zero] at hdiv
    exact hdiv
  subst hr
  exact ⟨rfl, by omega⟩

/-- A span of whole rows writes rows, each with the row of the same number. -/
theorem writes_rows {stride base start count a : Nat}
    (h : (⟨(base + start) * stride, start * stride, count * stride⟩ : Span).Writes a) :
    ∃ e, start ≤ e ∧ e < start + count ∧ ∃ i < stride, a = (base + e) * stride + i ∧
      start * stride + (a - (base + start) * stride) = e * stride + i := by
  obtain ⟨hlow, hhigh⟩ := h
  have hlow : (base + start) * stride ≤ a := hlow
  have hhigh : a < (base + start) * stride + count * stride := hhigh
  have hpos : 0 < stride := by
    by_contra hzero
    obtain rfl : stride = 0 := by omega
    simp at hhigh
  set q := (a - (base + start) * stride) / stride with hq
  have hmod := Nat.div_add_mod (a - (base + start) * stride) stride
  have hlt : (a - (base + start) * stride) % stride < stride := Nat.mod_lt _ hpos
  have hcount : q < count := (Nat.div_lt_iff_lt_mul hpos).mpr (by omega)
  rw [← hq, Nat.mul_comm] at hmod
  refine ⟨start + q, Nat.le_add_right _ _, Nat.add_lt_add_left hcount _, _, hlt, ?_, ?_⟩
  · have hsplit : (base + (start + q)) * stride = (base + start) * stride + q * stride := by
      rw [← Nat.add_assoc, Nat.add_mul]
    omega
  · have hsplit : (start + q) * stride = start * stride + q * stride := Nat.add_mul ..
    omega

/-- Every address of a row of the span is written. -/
theorem rows_written {stride base start count e i : Nat} (hlow : start ≤ e)
    (hhigh : e < start + count) (hi : i < stride) :
    (⟨(base + start) * stride, start * stride, count * stride⟩ : Span).Writes
      ((base + e) * stride + i) := by
  have hstart : (base + start) * stride ≤ (base + e) * stride := Nat.mul_le_mul_right _ (by omega)
  have hend : (base + e + 1) * stride ≤ (base + start + count) * stride :=
    Nat.mul_le_mul_right _ (by omega)
  rw [Nat.add_mul (base + e), Nat.one_mul, Nat.add_mul (base + start)] at hend
  constructor
  · show (base + start) * stride ≤ _
    omega
  · show _ < (base + start) * stride + count * stride
    omega

namespace CopyPlan

variable {c : CopyPlan ι β} {b : ι} {layer half e : Nat} {slots : Nat → Option Nat}

theorem mem_misses : e ∈ c.misses slots ↔ e < c.numExperts ∧ c.isHit (slots e) = false := by
  rw [misses, List.mem_filter, List.mem_range, Bool.not_eq_true']

theorem isHit_iff {slot : Option Nat} :
    c.isHit slot = true ↔ ∃ s, slot = some s ∧ 2 * c.numExperts ≤ s := by
  unfold isHit
  rw [Option.any_eq_true]
  simp

theorem mem_hitCompact {p : Nat × Nat} : p ∈ c.hitCompact half slots ↔
    ∃ e < c.numExperts, slots e = some p.2 ∧ 2 * c.numExperts ≤ p.2 ∧
      p.1 = half * c.numExperts + e := by
  obtain ⟨row, slot⟩ := p
  simp only [hitCompact, List.mem_filterMap, List.mem_range, Option.bind_eq_some_iff,
    Option.ite_none_right_eq_some, Option.some.injEq, Prod.mk.injEq]
  constructor
  · rintro ⟨e, he, s, hs, hle, hrow, rfl⟩
    exact ⟨e, he, hs, hle, hrow.symm⟩
  · rintro ⟨e, he, hs, hle, hrow⟩
    exact ⟨e, he, slot, hs, hle, hrow.symm, rfl⟩

/-- Whoever a bank's entries write: a miss, unless the layer is one entry. -/
def Sent (c : CopyPlan ι β) (b : ι) (layer : Nat) (slots : Nat → Option Nat) (e : Nat) : Prop :=
  c.Whole b layer ∨ c.isHit (slots e) = false

/-- **What the batch writes** is in the row of an expert that it serves, with that row's bytes. -/
theorem batchSpans_writes {p : Span} (hp : p ∈ c.batchSpans b layer half slots) {a : Nat}
    (ha : p.Writes a) :
    ∃ e < c.numExperts, c.Sent b layer slots e ∧ ∃ i < c.feat b layer,
      a = (half * c.numExperts + e) * c.dstStride b + i ∧
        p.src + (a - p.dst) = e * c.feat b layer + i := by
  unfold batchSpans at hp
  simp only at hp
  split_ifs at hp with hwhole hfeat
  · rw [List.mem_singleton] at hp
    subst hp
    have hspan : (⟨(half * c.numExperts + 0) * c.dstStride b, 0 * c.dstStride b,
        c.numExperts * c.dstStride b⟩ : Span).Writes a := by
      rw [hwhole.2] at ha
      simpa only [Nat.add_zero, Nat.zero_mul] using ha
    obtain ⟨e, -, he, i, hi, haddr, hsrc⟩ := writes_rows hspan
    rw [hwhole.2]
    refine ⟨e, by omega, Or.inl hwhole, i, hi, haddr, ?_⟩
    simpa only [Nat.add_zero, Nat.zero_mul, Nat.zero_add] using hsrc
  · obtain ⟨r, hr, rfl⟩ := List.mem_map.mp hp
    rw [hfeat] at ha
    obtain ⟨e, hlow, hhigh, i, hi, haddr, hsrc⟩ := writes_rows ha
    obtain ⟨he, hmiss⟩ := mem_misses.mp (mem_runs.mpr ⟨r, hr, hlow, hhigh⟩)
    rw [hfeat]
    exact ⟨e, he, Or.inr hmiss, i, hi, haddr, hsrc⟩
  · obtain ⟨e, hmem, rfl⟩ := List.mem_map.mp hp
    obtain ⟨he, hmiss⟩ := mem_misses.mp hmem
    obtain ⟨hlow, hhigh⟩ := ha
    have hlow : (half * c.numExperts + e) * c.dstStride b ≤ a := hlow
    have hhigh : a < (half * c.numExperts + e) * c.dstStride b + c.feat b layer := hhigh
    refine ⟨e, he, Or.inr hmiss, a - (half * c.numExperts + e) * c.dstStride b, by omega,
      by omega, rfl⟩

/-- **Every address of a row that the batch serves is written.** -/
theorem batchSpans_cover (he : e < c.numExperts) (hsent : c.Sent b layer slots e) {i : Nat}
    (hi : i < c.feat b layer) :
    ∃ p ∈ c.batchSpans b layer half slots,
      p.Writes ((half * c.numExperts + e) * c.dstStride b + i) := by
  unfold batchSpans
  simp only
  split_ifs with hwhole hfeat
  · refine ⟨_, List.mem_singleton_self _, ?_⟩
    rw [hwhole.2] at hi ⊢
    have hwritten : (⟨(half * c.numExperts + 0) * c.dstStride b, 0 * c.dstStride b,
        c.numExperts * c.dstStride b⟩ : Span).Writes
          ((half * c.numExperts + e) * c.dstStride b + i) :=
      rows_written (Nat.zero_le e) (by omega) hi
    simpa only [Nat.add_zero, Nat.zero_mul] using hwritten
  · have hmiss := hsent.resolve_left hwhole
    obtain ⟨r, hr, hlow, hhigh⟩ := mem_runs.mp (mem_misses.mpr ⟨he, hmiss⟩)
    refine ⟨_, List.mem_map.mpr ⟨r, hr, rfl⟩, ?_⟩
    rw [hfeat] at hi ⊢
    exact rows_written hlow hhigh hi
  · have hmiss := hsent.resolve_left hwhole
    refine ⟨_, List.mem_map.mpr ⟨e, mem_misses.mpr ⟨he, hmiss⟩, rfl⟩, Nat.le_add_right _ _, ?_⟩
    show _ < (half * c.numExperts + e) * c.dstStride b + c.feat b layer
    omega

/-- What the gather writes is in the row of a hit, and comes from its slot. -/
theorem gatherSpans_writes {hits : List (Nat × Nat)} {p : Span} (hp : p ∈ c.gatherSpans b hits)
    {a : Nat} (ha : p.Writes a) :
    ∃ q ∈ hits, ∃ i < c.dstStride b, a = q.1 * c.dstStride b + i ∧
      p.src + (a - p.dst) = q.2 * c.dstStride b + i := by
  obtain ⟨q, hq, rfl⟩ := List.mem_map.mp hp
  obtain ⟨hlow, hhigh⟩ := ha
  have hlow : q.1 * c.dstStride b ≤ a := hlow
  have hhigh : a < q.1 * c.dstStride b + c.dstStride b := hhigh
  exact ⟨q, hq, a - q.1 * c.dstStride b, by omega, by omega, rfl⟩

theorem gatherSpans_cover {hits : List (Nat × Nat)} {q : Nat × Nat} (hq : q ∈ hits) {i : Nat}
    (hi : i < c.dstStride b) :
    ∃ p ∈ c.gatherSpans b hits, p.Writes (q.1 * c.dstStride b + i) := by
  refine ⟨_, List.mem_map.mpr ⟨q, hq, rfl⟩, Nat.le_add_right _ _, ?_⟩
  show _ < q.1 * c.dstStride b + c.dstStride b
  omega

end CopyPlan

/-! ## What the two writers leave -/

namespace Chunk

variable {c : Chunk ι β} {s s' s₀ : ChunkState ι β} {k k' e : Nat} {b : ι}

theorem half_lt (k : Nat) : c.half k < 2 := Nat.mod_lt _ (by decide)

/-- A row of a half is a slot of the buffer. -/
theorem row_lt (he : e < c.numExperts) : c.half k * c.numExperts + e < 2 * c.numExperts := by
  have hhalf := c.half_lt k
  have hmul : (c.half k + 1) * c.numExperts ≤ 2 * c.numExperts := Nat.mul_le_mul_right _ hhalf
  rw [Nat.add_mul, Nat.one_mul] at hmul
  omega

/-- An address of the buffer names the half, the expert and the byte. -/
theorem address_unique {i i' e' : Nat} (he : e < c.numExperts) (he' : e' < c.numExperts)
    (hi : i < c.dstStride b) (hi' : i' < c.dstStride b)
    (h : (c.half k * c.numExperts + e) * c.dstStride b + i =
      (c.half k' * c.numExperts + e') * c.dstStride b + i') :
    c.half k = c.half k' ∧ e = e' ∧ i = i' := by
  obtain ⟨hrow, hbyte⟩ := row_unique hi hi' h
  obtain ⟨hhalf, hexpert⟩ := row_unique he he' hrow
  exact ⟨hhalf, hexpert, hbyte⟩

/-- An address of the buffer is below the slots behind it. -/
theorem address_lt {i : Nat} (he : e < c.numExperts) (hi : i < c.dstStride b) :
    (c.half k * c.numExperts + e) * c.dstStride b + i < 2 * c.numExperts * c.dstStride b := by
  have hmul : (c.half k * c.numExperts + e + 1) * c.dstStride b ≤
      2 * c.numExperts * c.dstStride b := Nat.mul_le_mul_right _ (row_lt he)
  rw [Nat.add_mul _ 1, Nat.one_mul] at hmul
  omega

/-- Two fills of one half, neither of them released and each with the half to itself, are one. -/
theorem same_of_half (hk : c.Free s k) (hk' : c.Free s k') (h : s.released ≤ k)
    (h' : s.released ≤ k') (hhalf : c.half k = c.half k') : k = k' := by
  rcases Nat.lt_trichotomy k k' with hlt | heq | hgt
  · have := hk' k hlt hhalf
    omega
  · exact heq
  · have := hk k' hgt hhalf.symm
    omega

/-! ### The gather -/

/-- The bytes after the gather of a fill. -/
def gatherMem (c : Chunk ι β) (mem : ι → Nat → β) (k : Nat) (b : ι) : Nat → β :=
  let hits := c.hitCompact (c.half k) (c.snapshot (c.layers k))
  if c.Gathered b then copySpans (mem b) (c.gatherSpans b hits) (mem b) else mem b

theorem gatherMem_of_not_row {mem : ι → Nat → β} {a : Nat}
    (h : ∀ e < c.numExperts, c.isHit (c.snapshot (c.layers k) e) = true →
      ∀ i < c.dstStride b, a ≠ (c.half k * c.numExperts + e) * c.dstStride b + i) :
    c.gatherMem mem k b a = mem b a := by
  unfold gatherMem
  split
  · refine copySpans_of_not_writes fun p hp ha => ?_
    obtain ⟨q, hq, i, hi, haddr, -⟩ := CopyPlan.gatherSpans_writes hp ha
    obtain ⟨e, he, hslot, hle, hrow⟩ := CopyPlan.mem_hitCompact.mp hq
    rw [hrow] at haddr
    exact h e he (CopyPlan.isHit_iff.mpr ⟨_, hslot, hle⟩) i hi haddr
  · rfl

/-- The gather brings the hits of the large banks. -/
theorem gatherMem_filled {mem : ι → Nat → β} (hb : c.Gathered b) (he : e < c.numExperts)
    (hhit : c.isHit (c.snapshot (c.layers k) e) = true)
    (hbytes : ∀ slot, c.snapshot (c.layers k) e = some slot → 2 * c.numExperts ≤ slot →
      ∀ i < c.feat b (c.layers k), mem b (slot * c.dstStride b + i) =
        c.source b (c.layers k) (e * c.feat b (c.layers k) + i)) :
    c.RowFilled (c.gatherMem mem k) k b e := by
  intro i hi
  have hi' : i < c.dstStride b := hi.trans_le (c.fits b _)
  obtain ⟨slot, hslot, hle⟩ := CopyPlan.isHit_iff.mp hhit
  have hmem : (c.half k * c.numExperts + e, slot) ∈
      c.hitCompact (c.half k) (c.snapshot (c.layers k)) :=
    CopyPlan.mem_hitCompact.mpr ⟨e, he, hslot, hle, rfl⟩
  unfold gatherMem
  rw [if_pos hb]
  refine copySpans_of_writes (CopyPlan.gatherSpans_cover hmem hi') fun p hp ha => ?_
  obtain ⟨q, hq, i', hi'', haddr, hsrc⟩ := CopyPlan.gatherSpans_writes hp ha
  obtain ⟨e', he', hslot', -, hrow⟩ := CopyPlan.mem_hitCompact.mp hq
  -- the one row at this address is that of the expert
  rw [hrow] at haddr
  obtain ⟨-, rfl, rfl⟩ := address_unique he he' hi' hi'' haddr
  rw [hslot, Option.some.injEq] at hslot'
  rw [hsrc, ← hslot']
  exact hbytes slot hslot hle i hi

/-! ### The batch -/

/-- The bytes after the copies of a fill from the host. -/
def batchMem (c : Chunk ι β) (mem : ι → Nat → β) (k : Nat) (b : ι) : Nat → β :=
  copySpans (c.source b (c.layers k))
    (c.batchSpans b (c.layers k) (c.half k) (c.snapshot (c.layers k))) (mem b)

theorem batchMem_of_not_row {mem : ι → Nat → β} {a : Nat}
    (h : ∀ e < c.numExperts, c.Sent b (c.layers k) (c.snapshot (c.layers k)) e →
      ∀ i < c.dstStride b, a ≠ (c.half k * c.numExperts + e) * c.dstStride b + i) :
    c.batchMem mem k b a = mem b a := by
  refine copySpans_of_not_writes fun p hp ha => ?_
  obtain ⟨e, he, hsent, i, hi, haddr, -⟩ := CopyPlan.batchSpans_writes hp ha
  exact h e he hsent i (hi.trans_le (c.fits b _)) haddr

/-- The batch brings whoever it serves. -/
theorem batchMem_filled {mem : ι → Nat → β} (he : e < c.numExperts)
    (hsent : c.Sent b (c.layers k) (c.snapshot (c.layers k)) e) :
    c.RowFilled (c.batchMem mem k) k b e := by
  intro i hi
  refine copySpans_of_writes (CopyPlan.batchSpans_cover he hsent hi) fun p hp ha => ?_
  obtain ⟨e', he', -, i', hi', haddr, hsrc⟩ := CopyPlan.batchSpans_writes hp ha
  obtain ⟨-, rfl, rfl⟩ := address_unique he he' (hi.trans_le (c.fits b _))
    (hi'.trans_le (c.fits b _)) haddr
  rw [hsrc]

/-! ## The invariant -/

/-- What holds while a chunk runs, however its two streams take turns. -/
structure Inv (c : Chunk ι β) (s₀ s : ChunkState ι β) : Prop where
  released : s.released ≤ s.waited
  waited : s.waited ≤ s.gathered ∧ s.waited ≤ s.copied
  compacted : s.gathered ≤ s.compacted
  /-- A fill that has begun on either stream has its half to itself. -/
  free : ∀ k, k < s.compacted ∨ k < s.copied → c.Free s k
  /-- The live map differs from the snapshot in entries that are misses in both. -/
  live : ∀ layer e, s.slotForId layer e = c.snapshot layer e ∨
    s.slotForId layer e = none ∧ c.isHit (c.snapshot layer e) = false
  ids : ∀ slot layer e, s.idOfSlot slot = some (layer, e) → c.snapshot layer e = some slot
  hits : s.gathered < s.compacted → s.compacted = s.gathered + 1 ∧
    s.hits = c.hitCompact (c.half s.gathered) (c.snapshot (c.layers s.gathered))
  /-- The slots behind the buffer keep their bytes. -/
  above : ∀ b a, 2 * c.numExperts * c.dstStride b ≤ a → s.mem b a = s₀.mem b a
  gatheredRows : ∀ k < s.gathered, s.released ≤ k → ∀ b, c.Gathered b → ∀ e < c.numExperts,
    c.isHit (c.snapshot (c.layers k) e) = true → c.RowFilled s.mem k b e
  copiedRows : ∀ k < s.copied, s.released ≤ k → ∀ b, ∀ e < c.numExperts,
    c.Sent b (c.layers k) (c.snapshot (c.layers k)) e → c.RowFilled s.mem k b e

theorem inv_of_begins (h : c.Begins s₀) : c.Inv s₀ s₀ where
  released := by rw [h.released, h.waited]
  waited := by rw [h.waited]; exact ⟨Nat.zero_le _, Nat.zero_le _⟩
  compacted := by rw [h.gathered]; exact Nat.zero_le _
  free k hk := by
    rw [h.compacted, h.copied] at hk
    omega
  live layer e := Or.inl (by rw [h.map])
  ids := h.ids
  hits hlt := by
    rw [h.compacted] at hlt
    omega
  above _ _ _ := rfl
  gatheredRows k hk := by
    rw [h.gathered] at hk
    omega
  copiedRows k hk := by
    rw [h.copied] at hk
    omega

/-- **The two maps agree on who is a hit.** -/
theorem Inv.classified (h : c.Inv s₀ s) (layer e : Nat) :
    c.isHit (s.slotForId layer e) = c.isHit (c.snapshot layer e) := by
  rcases h.live layer e with heq | ⟨hnone, hmiss⟩
  · rw [heq]
  · rw [hnone, hmiss]
    rfl

/-- The compaction of the live map is that of the snapshot. -/
theorem Inv.hitCompact (h : c.Inv s₀ s) (half layer : Nat) :
    c.hitCompact half (s.slotForId layer) = c.hitCompact half (c.snapshot layer) := by
  unfold CopyPlan.hitCompact
  refine List.filterMap_congr fun e _ => ?_
  rcases h.live layer e with heq | ⟨hnone, hmiss⟩
  · rw [heq]
  · -- an entry that was taken out was a miss before
    rw [hnone]
    cases hslot : c.snapshot layer e with
    | none => rfl
    | some slot =>
      have hlt : ¬2 * c.numExperts ≤ slot := by
        intro hle
        rw [CopyPlan.isHit_iff.mpr ⟨slot, hslot, hle⟩] at hmiss
        cases hmiss
      show none = if 2 * c.numExperts ≤ slot then _ else _
      rw [if_neg hlt]

theorem Free.mono (h : c.Free s k) (hle : s.released ≤ s'.released) : c.Free s' k :=
  fun k' hk' hhalf => (h k' hk' hhalf).trans_le hle

theorem Inv.compact (h : c.Inv s₀ s) (hs : c.step s .compact = some s') : c.Inv s₀ s' := by
  unfold step at hs
  simp only [Option.ite_none_right_eq_some, Option.some.injEq] at hs
  obtain ⟨⟨hidle, hfree⟩, rfl⟩ := hs
  refine ⟨h.released, h.waited, ?_, fun k hk => ?_, h.live, h.ids, fun _ => ⟨?_, ?_⟩, h.above,
    h.gatheredRows, h.copiedRows⟩
  · show s.gathered ≤ s.compacted + 1
    omega
  · have hk : k < s.compacted + 1 ∨ k < s.copied := hk
    rcases hk with hk | hk
    · rcases Nat.lt_succ_iff_lt_or_eq.mp hk with hlt | rfl
      · exact h.free k (Or.inl hlt)
      · exact hfree
    · exact h.free k (Or.inr hk)
  · show s.compacted + 1 = s.gathered + 1
    rw [hidle]
  · show c.hitCompact (c.half s.compacted) (s.slotForId (c.layers s.compacted)) = _
    rw [h.hitCompact, hidle]

theorem Inv.wait (h : c.Inv s₀ s) (hs : c.step s .wait = some s') : c.Inv s₀ s' := by
  unfold step at hs
  simp only [Option.ite_none_right_eq_some, Option.some.injEq] at hs
  obtain ⟨⟨hgathered, hcopied⟩, rfl⟩ := hs
  exact ⟨h.released.trans (Nat.le_succ _), ⟨hgathered, hcopied⟩, h.compacted, h.free, h.live, h.ids,
    h.hits, h.above, h.gatheredRows, h.copiedRows⟩

theorem Inv.release (h : c.Inv s₀ s) (hs : c.step s .release = some s') : c.Inv s₀ s' := by
  unfold step at hs
  simp only [Option.ite_none_right_eq_some, Option.some.injEq] at hs
  obtain ⟨hlt, rfl⟩ := hs
  exact ⟨hlt, h.waited, h.compacted, fun k hk => (h.free k hk).mono (Nat.le_succ _), h.live, h.ids,
    h.hits, h.above, fun k hk hle => h.gatheredRows k hk (Nat.le_of_succ_le hle),
    fun k hk hle => h.copiedRows k hk (Nat.le_of_succ_le hle)⟩

/-- The invalidation takes out entries of the buffer's own slots. -/
theorem Inv.invalidate (h : c.Inv s₀ s) (hs : c.step s .invalidate = some s') : c.Inv s₀ s' := by
  unfold step at hs
  simp only [Option.ite_none_right_eq_some, Option.some.injEq] at hs
  obtain ⟨⟨hlt, -⟩, rfl⟩ := hs
  have hslot : c.half s.copied * c.numExperts + s.vacated < 2 * c.numExperts := row_lt hlt
  generalize c.half s.copied * c.numExperts + s.vacated = slot at hslot
  refine ⟨h.released, h.waited, h.compacted, h.free, fun layer e => ?_, fun slot' layer e hid => ?_,
    h.hits, h.above, h.gatheredRows, h.copiedRows⟩
  · cases hid : s.idOfSlot slot with
    | none => exact h.live layer e
    | some id =>
      by_cases hsame : layer = id.1 ∧ e = id.2
      · obtain ⟨rfl, rfl⟩ := hsame
        right
        simp only [update_self, true_and]
        rw [h.ids slot id.1 id.2 hid]
        exact decide_eq_false (by omega)
      · have hother : update s.slotForId id.1 (update (s.slotForId id.1) id.2 none) layer e =
            s.slotForId layer e := by
          by_cases hlayer : layer = id.1
          · rw [hlayer, update_self, update_of_ne fun heq => hsame ⟨hlayer, heq⟩]
          · rw [update_of_ne hlayer]
        simp only [hother]
        exact h.live layer e
  · have hid : update s.idOfSlot slot none slot' = some (layer, e) := hid
    by_cases heq : slot' = slot
    · rw [heq, update_self] at hid
      cases hid
    · rw [update_of_ne heq] at hid
      exact h.ids slot' layer e hid

/-- A row of another fill's half, or of another expert, is not at the address. -/
theorem address_ne {i i' e' : Nat} (he : e < c.numExperts) (he' : e' < c.numExperts)
    (hi : i < c.dstStride b) (hi' : i' < c.dstStride b)
    (hne : ¬(c.half k = c.half k' ∧ e = e')) :
    (c.half k * c.numExperts + e) * c.dstStride b + i ≠
      (c.half k' * c.numExperts + e') * c.dstStride b + i' := fun h => by
  obtain ⟨hhalf, hexpert, -⟩ := address_unique he he' hi hi' h
  exact hne ⟨hhalf, hexpert⟩

theorem not_whole_of_gathered (hb : c.Gathered b) (layer : Nat) : ¬c.Whole b layer := by
  intro hwhole
  have hsmall := hwhole.1
  have hlarge : SMALL_BANK_FEAT_BYTES ≤ c.dstStride b := hb
  rw [hwhole.2] at hsmall
  omega

theorem Inv.gather (hbegins : c.Begins s₀) (h : c.Inv s₀ s) (hs : c.step s .gather = some s') :
    c.Inv s₀ s' := by
  unfold step at hs
  simp only [Option.ite_none_right_eq_some, Option.some.injEq] at hs
  obtain ⟨hlt, rfl⟩ := hs
  obtain ⟨hnext, hhits⟩ := h.hits hlt
  have hfree : c.Free s s.gathered := h.free _ (Or.inl hlt)
  have hopen : s.released ≤ s.gathered := h.released.trans h.waited.1
  have hmem : (fun b => if c.Gathered b then copySpans (s.mem b) (c.gatherSpans b s.hits) (s.mem b)
      else s.mem b) = c.gatherMem s.mem s.gathered := by
    funext b
    unfold gatherMem
    rw [hhits]
  simp only [hmem]
  refine ⟨h.released, ⟨h.waited.1.trans (Nat.le_succ _), h.waited.2⟩, hlt, h.free, h.live, h.ids,
    fun hpending => ?_, fun b a ha => ?_, fun k hk hle b hb e he hhit => ?_,
    fun k hk hle b e he hsent => ?_⟩
  · have hpending : s.gathered + 1 < s.compacted := hpending
    omega
  · refine Eq.trans ?_ (h.above b a ha)
    refine gatherMem_of_not_row fun e he _ i hi heq => ?_
    have := address_lt (c := c) (k := s.gathered) he hi
    omega
  · have hk : k < s.gathered + 1 := hk
    rcases Nat.lt_succ_iff_lt_or_eq.mp hk with hlt' | rfl
    · -- an earlier fill has the other half
      have hfilled := h.gatheredRows k hlt' hle b hb e he hhit
      intro i hi
      refine Eq.trans ?_ (hfilled i hi)
      refine gatherMem_of_not_row fun e' he' _ i' hi' => ?_
      refine address_ne he he' (hi.trans_le (c.fits b _)) hi' fun hsame => ?_
      have := same_of_half (h.free k (Or.inl (hlt'.trans hlt))) hfree hle hopen hsame.1
      omega
    · refine gatherMem_filled hb he hhit fun slot hslot habove i hi => ?_
      rw [← hbegins.bytes b _ e slot hslot habove i hi]
      refine h.above b _ ?_
      exact (Nat.mul_le_mul_right _ habove).trans (Nat.le_add_right _ _)
  · -- what the host sent is not a hit of this bank
    have hfilled := h.copiedRows k hk hle b e he hsent
    intro i hi
    refine Eq.trans ?_ (hfilled i hi)
    by_cases hb : c.Gathered b
    · refine gatherMem_of_not_row fun e' he' hhit i' hi' => ?_
      refine address_ne he he' (hi.trans_le (c.fits b _)) hi' fun hsame => ?_
      have hfill := same_of_half (h.free k (Or.inr hk)) hfree hle hopen hsame.1
      have hmiss := hsent.resolve_left (not_whole_of_gathered hb _)
      rw [hfill, hsame.2, hhit] at hmiss
      cases hmiss
    · exact congrFun (if_neg hb) _

theorem Inv.copy (h : c.Inv s₀ s) (hs : c.step s .copy = some s') : c.Inv s₀ s' := by
  unfold step at hs
  simp only [Option.ite_none_right_eq_some, Option.some.injEq] at hs
  obtain ⟨⟨-, hfree⟩, rfl⟩ := hs
  have hopen : s.released ≤ s.copied := h.released.trans h.waited.2
  refine ⟨h.released, ⟨h.waited.1, h.waited.2.trans (Nat.le_succ _)⟩, h.compacted, fun k hk => ?_,
    h.live, h.ids, h.hits, fun b a ha => ?_, fun k hk hle b hb e he hhit => ?_,
    fun k hk hle b e he hsent => ?_⟩
  · have hk : k < s.compacted ∨ k < s.copied + 1 := hk
    rcases hk with hk | hk
    · exact h.free k (Or.inl hk)
    · rcases Nat.lt_succ_iff_lt_or_eq.mp hk with hlt | rfl
      · exact h.free k (Or.inr hlt)
      · exact hfree
  · refine Eq.trans ?_ (h.above b a ha)
    refine batchMem_of_not_row (k := s.copied) fun e he _ i hi heq => ?_
    have := address_lt (c := c) (k := s.copied) he hi
    omega
  · -- a hit of a gathered bank is not sent
    have hfilled := h.gatheredRows k hk hle b hb e he hhit
    intro i hi
    refine Eq.trans ?_ (hfilled i hi)
    refine batchMem_of_not_row (k := s.copied) fun e' he' hsent i' hi' => ?_
    refine address_ne he he' (hi.trans_le (c.fits b _)) hi' fun hsame => ?_
    have hfill := same_of_half (h.free k (Or.inl (Nat.lt_of_lt_of_le hk h.compacted))) hfree hle
      hopen hsame.1
    have hmiss := hsent.resolve_left (not_whole_of_gathered hb _)
    rw [← hfill, ← hsame.2, hhit] at hmiss
    cases hmiss
  · have hk : k < s.copied + 1 := hk
    rcases Nat.lt_succ_iff_lt_or_eq.mp hk with hlt | rfl
    · have hfilled := h.copiedRows k hlt hle b e he hsent
      intro i hi
      refine Eq.trans ?_ (hfilled i hi)
      refine batchMem_of_not_row (k := s.copied) fun e' he' _ i' hi' => ?_
      refine address_ne he he' (hi.trans_le (c.fits b _)) hi' fun hsame => ?_
      have := same_of_half (h.free k (Or.inr hlt)) hfree hle hopen hsame.1
      omega
    · exact batchMem_filled he hsent

theorem Inv.step (hbegins : c.Begins s₀) (h : c.Inv s₀ s) {op : PrefetchOp}
    (hs : c.step s op = some s') : c.Inv s₀ s' := by
  cases op with
  | compact => exact h.compact hs
  | gather => exact h.gather hbegins hs
  | wait => exact h.wait hs
  | release => exact h.release hs
  | invalidate => exact h.invalidate hs
  | copy => exact h.copy hs

/-! ## Runs -/

/-- The layer's rows reach the buffer: where a bank is too small for the gather, its rows have one
size, or nobody is a hit. -/
def Served (c : Chunk ι β) (k : Nat) : Prop :=
  ∀ b, c.Gathered b ∨ c.feat b (c.layers k) = c.dstStride b ∨
    ∀ e < c.numExperts, c.isHit (c.snapshot (c.layers k) e) = false

/-- What a chunk should be at every moment. -/
structure Assembled (c : Chunk ι β) (s₀ s : ChunkState ι β) : Prop where
  /-- The live map and the snapshot classify alike. -/
  classified : ∀ layer e, c.isHit (s.slotForId layer e) = c.isHit (c.snapshot layer e)
  /-- The runs of a layer are its misses, each once. -/
  missRuns : ∀ layer,
    (runs (c.misses (c.snapshot layer))).flatMap (fun r => List.range' r.1 r.2) =
        c.misses (c.snapshot layer) ∧
      (c.misses (c.snapshot layer)).Nodup ∧
      ∀ e < c.numExperts, e ∈ c.misses (c.snapshot layer) ↔
        c.isHit (c.snapshot layer e) = false
  /-- A row that is about to be gathered has the bytes with which the chunk began. -/
  sources : s.gathered < s.compacted → ∀ q ∈ s.hits, ∀ b, ∀ i < c.dstStride b,
    s.mem b (q.2 * c.dstStride b + i) = s₀.mem b (q.2 * c.dstStride b + i)
  /-- From its wait to its release a half is complete. -/
  filled : ∀ k < s.waited, s.released ≤ k → c.Filled s.mem k

/-- A fill that is waited for belongs to a layer whose rows reach the buffer. -/
def Serves (c : Chunk ι β) (s : ChunkState ι β) : PrefetchOp → Prop
  | .wait => c.Served s.waited
  | _ => True

theorem served_of_reach (hr : Reach c.step c.Serves s₀ s) (h₀ : s₀.waited = 0) :
    ∀ k < s.waited, c.Served k := by
  refine hr.invariant (P := fun s => ∀ k < s.waited, c.Served k) (fun k hk => by omega) ?_
  intro s op s' h hok hs k hk
  cases op with
  | wait =>
    unfold Chunk.step at hs
    simp only [Option.ite_none_right_eq_some, Option.some.injEq] at hs
    obtain ⟨-, rfl⟩ := hs
    have hk : k < s.waited + 1 := hk
    rcases Nat.lt_succ_iff_lt_or_eq.mp hk with hlt | rfl
    · exact h k hlt
    · exact hok
  | _ =>
    unfold Chunk.step at hs
    simp only [Option.ite_none_right_eq_some, Option.some.injEq] at hs
    obtain ⟨-, rfl⟩ := hs
    exact h k hk

theorem Inv.filled (h : c.Inv s₀ s) (hk : k < s.waited) (hle : s.released ≤ k)
    (hserved : c.Served k) : c.Filled s.mem k := by
  intro b e he
  have hcopied : k < s.copied := hk.trans_le h.waited.2
  have hgathered : k < s.gathered := hk.trans_le h.waited.1
  cases hhit : c.isHit (c.snapshot (c.layers k) e) with
  | false => exact h.copiedRows k hcopied hle b e he (Or.inr hhit)
  | true =>
    by_cases hb : c.Gathered b
    · exact h.gatheredRows k hgathered hle b hb e he hhit
    · rcases hserved b with hlarge | hsize | hnone
      · exact absurd hlarge hb
      · -- a small bank of one size comes as a whole
        refine h.copiedRows k hcopied hle b e he (Or.inl ⟨?_, hsize⟩)
        rw [hsize]
        exact Nat.lt_of_not_le hb
      · rw [hnone e he] at hhit
        cases hhit

end Chunk

/-- **The assembly of a chunk is exact** in every order that the events allow, where no layer that is
waited for has a hit in a small bank with rows of more than one size. -/
theorem prefetch_split_assembled (c : Chunk ι β) {s₀ s : ChunkState ι β} (h₀ : c.Begins s₀)
    (hr : Reach c.step c.Serves s₀ s) : c.Assembled s₀ s := by
  have hinv : c.Inv s₀ s :=
    hr.invariant (Chunk.inv_of_begins h₀) fun _ _ _ h _ hs => h.step h₀ hs
  exact
    { classified := hinv.classified
      missRuns := fun layer => ⟨runs_flatMap _, List.nodup_range.filter _, fun e he => by
        rw [CopyPlan.mem_misses]
        exact and_iff_right he⟩
      sources := fun hlt q hq b i _ => by
        obtain ⟨-, hhits⟩ := hinv.hits hlt
        rw [hhits] at hq
        obtain ⟨e, -, -, hle, -⟩ := CopyPlan.mem_hitCompact.mp hq
        refine hinv.above b _ ?_
        exact (Nat.mul_le_mul_right _ hle).trans (Nat.le_add_right _ _)
      filled := fun k hk hle =>
        hinv.filled hk hle (Chunk.served_of_reach hr h₀.waited k hk) }

/-- Two layers of one expert, in a bank of 32 bytes a row of which the first layer uses 16; the
expert of the first layer is on the slot behind the buffer. -/
def paddedBank (wide : Nat) : Chunk Unit Nat where
  numExperts := 1
  dstStride _ := 32
  feat _ layer := if layer = 0 then min wide 32 else 32
  fits _ layer := by
    split
    · exact Nat.min_le_right _ _
    · exact Nat.le_refl _
  source _ _ _ := 1
  snapshot layer e := if layer = 0 ∧ e = 0 then some 2 else none
  layers k := k

/-- The buffer holds zeros. -/
def zeroBuffer (wide : Nat) : ChunkState Unit Nat where
  slotForId := (paddedBank wide).snapshot
  idOfSlot slot := if slot = 2 then some (0, 0) else none
  mem _ a := if 64 ≤ a then 1 else 0

theorem zeroBuffer_begins (wide : Nat) : (paddedBank wide).Begins (zeroBuffer wide) where
  map := rfl
  ids slot layer e h := by
    have h : (if slot = 2 then some (0, 0) else none) = some (layer, e) := h
    split at h
    · rename_i hslot
      simp only [Option.some.injEq, Prod.mk.injEq] at h
      obtain ⟨rfl, rfl⟩ := h
      rw [hslot]
      rfl
    · cases h
  bytes b layer e slot _ hle i _ := by
    have hle : 2 ≤ slot := hle
    show (if 64 ≤ slot * 32 + i then 1 else 0) = 1
    rw [if_pos (by omega)]
  compacted := rfl
  gathered := rfl
  waited := rfl
  released := rfl
  vacated := rfl
  copied := rfl

/-- Where the layer fills its rows, it is complete when it is waited for. -/
theorem prefetch_split_assembled_wide :
    ∃ s, s.waited = 1 ∧ (paddedBank 32).Assembled (zeroBuffer 32) s :=
  ⟨_, rfl, prefetch_split_assembled _ (zeroBuffer_begins 32)
    (.step (a := .wait)
      (.step (a := .copy)
        (.step (a := .invalidate)
          (.step (a := .gather)
            (.step (a := .compact) .refl trivial rfl) trivial rfl) trivial rfl) trivial rfl)
      (fun _ => Or.inr (Or.inl rfl)) rfl)⟩

/-- **A hit whose row does not fill the row of a small bank is lost**: neither the gather nor the
host brings it. -/
theorem padded_hit_lost :
    ∃ s, Reach (paddedBank 16).step (fun _ _ => True) (zeroBuffer 16) s ∧
      (paddedBank 16).Begins (zeroBuffer 16) ∧ ¬(paddedBank 16).Assembled (zeroBuffer 16) s := by
  obtain ⟨s, hrun, hwaited, hreleased, hbyte⟩ :
      ∃ s, run (paddedBank 16).step (zeroBuffer 16) [.compact, .gather, .invalidate, .copy, .wait] =
        some s ∧ s.waited = 1 ∧ s.released = 0 ∧ s.mem () 0 = 0 := ⟨_, rfl, rfl, rfl, rfl⟩
  refine ⟨s, reach_of_run _ hrun, zeroBuffer_begins 16, fun h => ?_⟩
  have hfilled : s.mem () 0 = 1 :=
    h.filled 0 (by omega) (by omega) () 0 (by decide) 0 (by decide)
  rw [hbyte] at hfilled
  cases hfilled

end FreeToken.Experts
