import FreeToken.Lib.Pairing

/-!
# The bounded expert mirror

The device state of `MirrorResidency`: which expert sits in which GPU slot and in which
row of the host pool, the stack of unowned pool rows, the staging ring of write-backs
that have not reached their pool rows, and the bytes that slots, rows and ring slots
hold. Experts are flat ids `layer * numExperts + expert`.

* `landed` is the pool once every pending write-back has landed.
* `Covered` is what the swap protocol keeps between steps: the maps name the same
  pairs, every expert has a copy, and every copy has the expert's bytes.
-/

namespace FreeToken.Mirror

open FreeToken.Lib Function

/-- The geometry of a mirror and its pool. -/
structure Geometry where
  numLayers : Nat
  numExperts : Nat
  /-- Slots of the GPU cache. -/
  cacheSize : Nat
  /-- Rows of the pool. -/
  capacity : Nat
  reserveRows : Nat
  /-- Slots of the staging ring, none when it is off. -/
  wbStageRows : Nat
  prefillOverlap : Bool := true

namespace Geometry

def total (g : Geometry) : Nat := g.numLayers * g.numExperts

/-- `prefill_buffer_slots`: the double buffer at the head of the cache. -/
def prefillBufferSlots (g : Geometry) : Nat := 2 * g.numExperts

/-- `_mirror_prefill_base`. -/
def prefillBase (g : Geometry) : Nat := if g.prefillOverlap then g.prefillBufferSlots else 0

end Geometry

/-- The shared counters, by the names of `MirrorStat`. -/
structure MirrorStat where
  swaps : Nat := 0
  freeEvictions : Nat := 0
  writebacks : Nat := 0
  violations : Nat := 0
  starved : Nat := 0
  retained : Nat := 0
  bufferFreeEvictions : Nat := 0
  stagedWritebacks : Nat := 0
  stageRedirects : Nat := 0
  ringFull : Nat := 0
deriving DecidableEq

/-- `wb_state` and `wb_pend`: entries ever staged, entries whose copy has landed, the
pool row of each ring slot, and the ring index of the latest entry for each row. -/
structure Ring where
  head : Nat := 0
  done : Nat := 0
  rowOf : Nat → Nat := fun _ => 0
  pend : Nat → Option Nat := fun _ => none

structure Mirror (β : Type) where
  idOfSlot : Nat → Option Nat
  slotForId : Nat → Option Nat
  poolRowOfId : Nat → Option Nat
  idOfPoolRow : Nat → Option Nat
  /-- The stack of unowned rows, its top first. -/
  freeRows : List Nat
  /-- Rows freed in this step, pushed behind its copies. -/
  freedRows : List Nat := []
  ring : Ring := {}
  stats : MirrorStat := {}
  gpu : Nat → β
  pool : Nat → β
  stage : Nat → β

/-! ## Copies -/

section Copies

variable {β : Type}

/-- One launch of row copies: `dst[d] = src[s]` for the pairs `(d, s)`. -/
def copyRows (src : Nat → β) (pairs : List (Nat × Nat)) (dst : Nat → β) : Nat → β :=
  pairs.foldl (fun bank p => update bank p.1 (src p.2)) dst

@[simp] theorem copyRows_nil (src dst : Nat → β) : copyRows src [] dst = dst := rfl

theorem copyRows_append (src dst : Nat → β) (a b : List (Nat × Nat)) :
    copyRows src (a ++ b) dst = copyRows src b (copyRows src a dst) :=
  List.foldl_append

theorem copyRows_of_not_mem {src dst : Nat → β} {pairs : List (Nat × Nat)} {r : Nat}
    (h : ∀ p ∈ pairs, p.1 ≠ r) : copyRows src pairs dst r = dst r := by
  induction pairs generalizing dst with
  | nil => rfl
  | cons p pairs ih =>
    rw [copyRows, List.foldl_cons]
    refine (ih fun q hq => h q (List.mem_cons_of_mem _ hq)).trans ?_
    exact update_of_ne (h p List.mem_cons_self).symm _ _

/-- A row that one pair writes has that pair's source. -/
theorem copyRows_of_mem {src dst : Nat → β} {pairs : List (Nat × Nat)} {r s : Nat}
    (hnd : (pairs.map Prod.fst).Nodup) (h : (r, s) ∈ pairs) :
    copyRows src pairs dst r = src s := by
  induction pairs generalizing dst with
  | nil => simp at h
  | cons p pairs ih =>
    rw [List.map_cons, List.nodup_cons] at hnd
    rw [copyRows, List.foldl_cons]
    rcases List.mem_cons.mp h with rfl | h
    · refine (copyRows_of_not_mem fun q hq heq => hnd.1 ?_).trans (update_self _ _ _)
      exact List.mem_map.mpr ⟨q, hq, heq⟩
    · exact ih hnd.2 h

end Copies

/-! ## The pool behind the ring -/

variable {β : Type}

namespace Mirror

/-- The copy of ring entry `idx` lands. -/
def land (g : Geometry) (m : Mirror β) (pool : Nat → β) (idx : Nat) : Nat → β :=
  update pool (m.ring.rowOf (idx % g.wbStageRows)) (m.stage (idx % g.wbStageRows))

/-- The pool once the pending entries have landed, in ring order. -/
def landed (g : Geometry) (m : Mirror β) : Nat → β :=
  (List.range' m.ring.done (m.ring.head - m.ring.done)).foldl (m.land g) m.pool

theorem landed_of_drained (g : Geometry) {m : Mirror β} (h : m.ring.done = m.ring.head) :
    m.landed g = m.pool := by
  rw [landed, h, Nat.sub_self]
  rfl

/-- `drain_writebacks`. -/
def drainWritebacks (g : Geometry) (m : Mirror β) : Mirror β :=
  { m with pool := m.landed g, ring := { m.ring with done := m.ring.head } }

end Mirror

/-! ## Coverage -/

/-- **What holds between steps**, for the bytes `data` of the experts. -/
structure Covered (g : Geometry) (data : Nat → β) (m : Mirror β) : Prop where
  slots : Paired m.slotForId m.idOfSlot
  rows : Paired m.poolRowOfId m.idOfPoolRow
  free : Unowned (· < g.capacity) m.idOfPoolRow m.freeRows
  published : m.freedRows = []
  covered : ∀ id < g.total, m.slotForId id ≠ none ∨ m.poolRowOfId id ≠ none
  slotBytes : ∀ id slot, m.slotForId id = some slot → m.gpu slot = data id
  rowBytes : ∀ id row, m.poolRowOfId id = some row → m.landed g row = data id

theorem Covered.drain {g : Geometry} {data : Nat → β} {m : Mirror β} (h : Covered g data m) :
    Covered g data (m.drainWritebacks g) where
  slots := h.slots
  rows := h.rows
  free := h.free
  published := h.published
  covered := h.covered
  slotBytes := h.slotBytes
  rowBytes id row hrow := by
    rw [Mirror.landed_of_drained g rfl]
    exact h.rowBytes id row hrow

end FreeToken.Mirror
