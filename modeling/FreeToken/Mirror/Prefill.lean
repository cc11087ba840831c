import FreeToken.Mirror.State
import Mathlib.Data.List.Nodup
import Mathlib.Data.List.Perm.Basic

/-!
# Prefill layers assembled from the mirror

`begin_prefill` takes snapshots of the slot map and of the pool-row map, and
`_prefetch_split_mirror` fills a half of the double buffer from them, having written
back what sat in that half.

* `mirrorWritebackBuffer_eq` — the kernel, its copies and the patched snapshots vacate
  one slot after the other.
* `vacate_keeps` — which keeps coverage as long as a sole copy finds a free row.
* `prefetch_exact` — the fill of a half with that much room is exact.
* `chunk_exact` — and so is every fill of a chunk.
-/

namespace FreeToken.Mirror

open FreeToken.Lib Function

variable {β : Type}

/-! ## Writing back a half -/

/-- The descriptors of `_writeback_buffer_kernel`. -/
structure WritebackPlan where
  /-- `(slot, row)` of each occupant written back. -/
  d2h : List (Nat × Nat) := []
  /-- `(expert, row)` of the same. -/
  written : List (Nat × Nat) := []
  /-- Every occupant found. -/
  vacated : List Nat := []

/-- What an occupant leaves behind: a retained duplicate is free to evict, a sole copy
goes to a free row. -/
def preserveOccupant (slot old : Nat) (acc : Mirror β × WritebackPlan) : Mirror β × WritebackPlan :=
  match acc.1.poolRowOfId old, acc.1.freeRows with
  | some _, _ =>
    ({ acc.1 with stats := { acc.1.stats with
        bufferFreeEvictions := acc.1.stats.bufferFreeEvictions + 1 } }, acc.2)
  | none, row :: free =>
    ({ acc.1 with
        freeRows := free
        idOfPoolRow := update acc.1.idOfPoolRow row (some old)
        poolRowOfId := update acc.1.poolRowOfId old (some row)
        stats := { acc.1.stats with writebacks := acc.1.stats.writebacks + 1 } },
      { acc.2 with
        d2h := acc.2.d2h ++ [(slot, row)]
        written := acc.2.written ++ [(old, row)] })
  -- reserve exhausted: counted, not corrected
  | none, [] =>
    ({ acc.1 with stats := { acc.1.stats with starved := acc.1.stats.starved + 1 } }, acc.2)

/-- One turn of the loop of `_writeback_buffer_kernel`. -/
def writebackSlot (slot : Nat) (acc : Mirror β × WritebackPlan) : Mirror β × WritebackPlan :=
  match acc.1.idOfSlot slot with
  | none => acc
  | some old =>
    let r := preserveOccupant slot old acc
    ({ r.1 with
        slotForId := update r.1.slotForId old none
        idOfSlot := update r.1.idOfSlot slot none },
      { r.2 with vacated := r.2.vacated ++ [old] })

/-- `_writeback_buffer_kernel` over the slots of a half. -/
def writebackBufferOccupants (m : Mirror β) (slots : List Nat) : Mirror β × WritebackPlan :=
  slots.foldl (fun acc slot => writebackSlot slot acc) (m, {})

/-! ## The host's side -/

/-- The mirror, with the host snapshots a chunk reads. -/
structure PrefillState (β : Type) where
  mirror : Mirror β
  /-- `_prefill_snapshot_np`, by flat id. -/
  slotSnapshot : Nat → Option Nat
  /-- `_mirror_prefill_pool_np`. -/
  poolSnapshot : Nat → Option Nat
  prefillHitRows : Nat := 0
  prefillTotalRows : Nat := 0

variable (g : Geometry)

/-- `begin_prefill`. -/
def beginPrefill (m : Mirror β) : PrefillState β :=
  let m := m.drainWritebacks g
  { mirror := m, slotSnapshot := m.slotForId, poolSnapshot := m.poolRowOfId }

/-- The slots of a half of the double buffer. -/
def halfSlots (bufferId : Nat) : List Nat := List.range' (bufferId * g.numExperts) g.numExperts

/-- `_mirror_writeback_buffer`: the kernel, its copies, and the two snapshots patched. -/
def mirrorWritebackBuffer (bufferId : Nat) (st : PrefillState β) : PrefillState β :=
  let (m, plan) := writebackBufferOccupants st.mirror (halfSlots g bufferId)
  { st with
    mirror := { m with pool := copyRows m.gpu (plan.d2h.map Prod.swap) m.pool }
    poolSnapshot := plan.written.foldl (fun f p => update f p.1 (some p.2)) st.poolSnapshot
    slotSnapshot := plan.vacated.foldl (fun f id => update f id none) st.slotSnapshot }

/-- The error of `_prefetch_split_mirror`. -/
structure CoverageLost where
  expert : Nat
  layer : Nat
deriving DecidableEq

/-- `_prefetch_split_mirror`. -/
def prefetchSplitMirror (layerId bufferId : Nat) (st : PrefillState β) :
    Except CoverageLost (PrefillState β) :=
  let st := mirrorWritebackBuffer g bufferId st
  let baseFlat := layerId * g.numExperts
  let dstBase := bufferId * g.numExperts
  let pos := List.range g.numExperts
  let hits := pos.filterMap fun e => (st.slotSnapshot (baseFlat + e)).map (dstBase + e, ·)
  let missPos := pos.filter fun e => st.slotSnapshot (baseFlat + e) = none
  match missPos.find? fun e => st.poolSnapshot (baseFlat + e) = none with
  | some e => .error { expert := baseFlat + e, layer := layerId }
  | none =>
    let misses := missPos.filterMap fun e => (st.poolSnapshot (baseFlat + e)).map (dstBase + e, ·)
    let gpu := copyRows st.mirror.gpu hits st.mirror.gpu
    .ok { st with
      mirror := { st.mirror with gpu := copyRows st.mirror.pool misses gpu }
      prefillHitRows := st.prefillHitRows + hits.length
      prefillTotalRows := st.prefillTotalRows + g.numExperts }

/-- The layers of a chunk, each with the half it goes to. -/
def prefetchAll : List (Nat × Nat) → PrefillState β → Except CoverageLost (PrefillState β)
  | [], st => .ok st
  | (layerId, bufferId) :: calls, st =>
    (prefetchSplitMirror g layerId bufferId st).bind (prefetchAll calls)

/-! ## One occupant at a time -/

/-- The occupant of a slot loses it, on the device and in the snapshot. -/
def dropOccupant (slot old : Nat) (st : PrefillState β) : PrefillState β :=
  { st with
    mirror := { st.mirror with
      slotForId := update st.mirror.slotForId old none
      idOfSlot := update st.mirror.idOfSlot slot none }
    slotSnapshot := update st.slotSnapshot old none }

/-- A sole copy is written to a free row, on the device and in the snapshot. -/
def writeBack (slot old row : Nat) (free : List Nat) (st : PrefillState β) : PrefillState β :=
  { st with
    mirror := { st.mirror with
      freeRows := free
      idOfPoolRow := update st.mirror.idOfPoolRow row (some old)
      poolRowOfId := update st.mirror.poolRowOfId old (some row)
      pool := update st.mirror.pool row (st.mirror.gpu slot)
      stats := { st.mirror.stats with writebacks := st.mirror.stats.writebacks + 1 } }
    poolSnapshot := update st.poolSnapshot old (some row) }

def bumpBufferFreeEvictions (st : PrefillState β) : PrefillState β :=
  { st with mirror := { st.mirror with stats := { st.mirror.stats with
      bufferFreeEvictions := st.mirror.stats.bufferFreeEvictions + 1 } } }

def bumpStarved (st : PrefillState β) : PrefillState β :=
  { st with mirror := { st.mirror with stats := { st.mirror.stats with
      starved := st.mirror.stats.starved + 1 } } }

/-- What the write-back of a half does with one slot, all of it at once. -/
def vacate (st : PrefillState β) (slot : Nat) : PrefillState β :=
  match st.mirror.idOfSlot slot with
  | none => st
  | some old =>
    match st.mirror.poolRowOfId old, st.mirror.freeRows with
    | some _, _ => dropOccupant slot old (bumpBufferFreeEvictions st)
    | none, row :: free => dropOccupant slot old (writeBack slot old row free st)
    | none, [] => dropOccupant slot old (bumpStarved st)

theorem vacate_of_empty {st : PrefillState β} {slot : Nat} (h : st.mirror.idOfSlot slot = none) :
    vacate st slot = st := by
  simp only [vacate, h]

theorem vacate_of_duplicate {st : PrefillState β} {slot old row : Nat}
    (hold : st.mirror.idOfSlot slot = some old) (hrow : st.mirror.poolRowOfId old = some row) :
    vacate st slot = dropOccupant slot old (bumpBufferFreeEvictions st) := by
  simp only [vacate, hold, hrow]

theorem vacate_of_sole {st : PrefillState β} {slot old row : Nat} {free : List Nat}
    (hold : st.mirror.idOfSlot slot = some old) (hnone : st.mirror.poolRowOfId old = none)
    (hfree : st.mirror.freeRows = row :: free) :
    vacate st slot = dropOccupant slot old (writeBack slot old row free st) := by
  simp only [vacate, hold, hnone, hfree]

/-- The host's view of what the kernel has done so far. -/
def applied (st : PrefillState β) (acc : Mirror β × WritebackPlan) : PrefillState β :=
  { st with
    mirror := { acc.1 with pool := copyRows acc.1.gpu (acc.2.d2h.map Prod.swap) acc.1.pool }
    poolSnapshot := acc.2.written.foldl (fun f p => update f p.1 (some p.2)) st.poolSnapshot
    slotSnapshot := acc.2.vacated.foldl (fun f id => update f id none) st.slotSnapshot }

theorem applied_writebackSlot (st : PrefillState β) (acc : Mirror β × WritebackPlan) (slot : Nat) :
    applied st (writebackSlot slot acc) = vacate (applied st acc) slot := by
  obtain ⟨m, plan⟩ := acc
  simp only [writebackSlot, vacate, applied]
  cases hold : m.idOfSlot slot with
  | none => rfl
  | some old =>
    cases hrow : m.poolRowOfId old with
    | some row => simp [preserveOccupant, hrow, dropOccupant, bumpBufferFreeEvictions]
    | none =>
      cases hfree : m.freeRows with
      | nil => simp [preserveOccupant, hrow, hfree, dropOccupant, bumpStarved]
      | cons row free => simp [preserveOccupant, hrow, hfree, dropOccupant, writeBack, copyRows]

/-- **The kernel, its copies and the patches vacate one slot after the other.** -/
theorem mirrorWritebackBuffer_eq (bufferId : Nat) (st : PrefillState β) :
    mirrorWritebackBuffer g bufferId st = (halfSlots g bufferId).foldl vacate st := by
  have main : ∀ (slots : List Nat) (acc : Mirror β × WritebackPlan),
      applied st (slots.foldl (fun acc slot => writebackSlot slot acc) acc) =
        slots.foldl vacate (applied st acc) := by
    intro slots
    induction slots with
    | nil => intro acc; rfl
    | cons slot slots ih =>
      intro acc
      rw [List.foldl_cons, List.foldl_cons, ih, applied_writebackSlot]
  exact main (halfSlots g bufferId) (st.mirror, {})

/-! ## What vacating keeps -/

/-- Between two calls of a chunk: covered, nothing pending, and the snapshots are the
maps. -/
structure Assembling (data : Nat → β) (st : PrefillState β) : Prop where
  covered : Covered g data st.mirror
  drained : st.mirror.ring.done = st.mirror.ring.head
  slotSnapshot : st.slotSnapshot = st.mirror.slotForId
  poolSnapshot : st.poolSnapshot = st.mirror.poolRowOfId

/-- The occupant of a slot has no pool row. -/
def soleCopy (m : Mirror β) (slot : Nat) : Bool :=
  match m.idOfSlot slot with
  | some id => (m.poolRowOfId id).isNone
  | none => false

def soleCopies (m : Mirror β) (slots : List Nat) : Nat := slots.countP (soleCopy m)

variable {g} {data : Nat → β} {st : PrefillState β}

theorem Assembling.poolBytes (h : Assembling g data st) {id row : Nat}
    (hrow : st.mirror.poolRowOfId id = some row) : st.mirror.pool row = data id := by
  have := h.covered.rowBytes id row hrow
  rwa [Mirror.landed_of_drained g h.drained] at this

theorem beginPrefill_assembling {m : Mirror β} (h : Covered g data m) :
    Assembling g data (beginPrefill g m) where
  covered := h.drain
  drained := rfl
  slotSnapshot := rfl
  poolSnapshot := rfl

/-- The occupant of a slot that has a pool row may lose the slot. -/
theorem dropOccupant_keeps (h : Assembling g data st) {slot old row : Nat}
    (hold : st.mirror.idOfSlot slot = some old) (hrow : st.mirror.poolRowOfId old = some row) :
    Assembling g data (dropOccupant slot old st) where
  covered :=
    { slots := h.covered.slots.unlink ((h.covered.slots _ _).mpr hold)
      rows := h.covered.rows
      free := h.covered.free
      published := h.covered.published
      covered := by
        intro id hid
        by_cases heq : id = old
        · refine Or.inr ?_
          rw [heq]
          exact hrow.trans_ne (Option.some_ne_none row)
        · simpa only [dropOccupant, update_of_ne heq] using h.covered.covered id hid
      slotBytes := by
        intro id slot' hslot
        by_cases heq : id = old
        · simp [dropOccupant, heq] at hslot
        · simp only [dropOccupant, update_of_ne heq] at hslot
          exact h.covered.slotBytes id slot' hslot
      rowBytes := h.covered.rowBytes }
  drained := h.drained
  slotSnapshot := by simp only [dropOccupant, h.slotSnapshot]
  poolSnapshot := h.poolSnapshot

/-- A sole copy lands in a free row. -/
theorem writeBack_keeps (h : Assembling g data st) {slot old row : Nat} {free : List Nat}
    (hold : st.mirror.idOfSlot slot = some old) (hnone : st.mirror.poolRowOfId old = none)
    (hfree : st.mirror.freeRows = row :: free) :
    Assembling g data (writeBack slot old row free st) := by
  have hunowned : Unowned (· < g.capacity) st.mirror.idOfPoolRow (row :: free) :=
    hfree ▸ h.covered.free
  have hrow : st.mirror.idOfPoolRow row = none := ((hunowned.mem_iff row).mp List.mem_cons_self).2
  exact {
    covered :=
      { slots := h.covered.slots
        rows := h.covered.rows.link hnone hrow
        free := hunowned.pop old
        published := h.covered.published
        covered := by
          intro id hid
          by_cases heq : id = old
          · exact Or.inr (by simp [writeBack, heq])
          · simpa only [writeBack, update_of_ne heq] using h.covered.covered id hid
        slotBytes := h.covered.slotBytes
        rowBytes := by
          intro id row' hrow'
          have hpool : (writeBack slot old row free st).mirror.landed g =
              update st.mirror.pool row (st.mirror.gpu slot) := Mirror.landed_of_drained g h.drained
          rw [hpool]
          by_cases heq : id = old
          · simp only [writeBack, heq, update_self, Option.some.injEq] at hrow'
            rw [← hrow', heq]
            refine (update_self ..).trans ?_
            exact h.covered.slotBytes old slot ((h.covered.slots _ _).mpr hold)
          · simp only [writeBack, update_of_ne heq] at hrow'
            have hne : row' ≠ row := by
              intro hr
              rw [h.covered.rows, hr, hrow] at hrow'
              simp at hrow'
            exact (update_of_ne hne _ _).trans (h.poolBytes hrow') }
    drained := h.drained
    slotSnapshot := h.slotSnapshot
    poolSnapshot := by simp only [writeBack, h.poolSnapshot] }

theorem bumpBufferFreeEvictions_keeps (h : Assembling g data st) :
    Assembling g data (bumpBufferFreeEvictions st) where
  covered :=
    { slots := h.covered.slots, rows := h.covered.rows, free := h.covered.free
      published := h.covered.published, covered := h.covered.covered
      slotBytes := h.covered.slotBytes, rowBytes := h.covered.rowBytes }
  drained := h.drained
  slotSnapshot := h.slotSnapshot
  poolSnapshot := h.poolSnapshot

/-- Vacating a slot keeps coverage when there is a row for a sole copy. -/
theorem vacate_keeps (h : Assembling g data st) (slot : Nat)
    (hroom : soleCopy st.mirror slot = true → st.mirror.freeRows ≠ []) :
    Assembling g data (vacate st slot) := by
  cases hold : st.mirror.idOfSlot slot with
  | none =>
    rw [vacate_of_empty hold]
    exact h
  | some old =>
    cases hrow : st.mirror.poolRowOfId old with
    | some row =>
      rw [vacate_of_duplicate hold hrow]
      exact dropOccupant_keeps (bumpBufferFreeEvictions_keeps h) hold hrow
    | none =>
      cases hfree : st.mirror.freeRows with
      | nil => exact absurd hfree (hroom (by simp [soleCopy, hold, hrow]))
      | cons row free =>
        rw [vacate_of_sole hold hrow hfree]
        have hown : (writeBack slot old row free st).mirror.poolRowOfId old = some row := by
          simp [writeBack]
        exact dropOccupant_keeps (writeBack_keeps h hold hrow hfree) hold hown

/-! ### What vacating changes -/

theorem vacate_gpu (st : PrefillState β) (slot : Nat) :
    (vacate st slot).mirror.gpu = st.mirror.gpu := by
  unfold vacate
  split
  · rfl
  · split <;> rfl

theorem vacate_idOfSlot (st : PrefillState β) (slot : Nat) :
    (vacate st slot).mirror.idOfSlot = update st.mirror.idOfSlot slot none := by
  cases hold : st.mirror.idOfSlot slot with
  | none =>
    rw [vacate_of_empty hold]
    exact (update_eq_self_iff.mpr hold.symm).symm
  | some old =>
    simp only [vacate, hold]
    split <;> rfl

/-- Other slots keep their occupant, with a row if it had one. -/
theorem vacate_soleCopy (hslots : Paired st.mirror.slotForId st.mirror.idOfSlot) {slot slot' : Nat}
    (hne : slot' ≠ slot) :
    soleCopy (vacate st slot).mirror slot' = soleCopy st.mirror slot' := by
  unfold soleCopy
  rw [vacate_idOfSlot, update_of_ne hne]
  cases hid : st.mirror.idOfSlot slot' with
  | none => rfl
  | some id =>
    cases hold : st.mirror.idOfSlot slot with
    | none => rw [vacate_of_empty hold]
    | some old =>
      have hne' : id ≠ old := by
        rintro rfl
        exact hne (hslots.symm.inj hid hold)
      simp only [vacate, hold]
      split <;> simp [dropOccupant, bumpBufferFreeEvictions, bumpStarved, writeBack, hne']

theorem vacate_freeRows (st : PrefillState β) (slot : Nat)
    (hroom : soleCopy st.mirror slot = true → st.mirror.freeRows ≠ []) :
    (vacate st slot).mirror.freeRows.length + (if soleCopy st.mirror slot then 1 else 0) =
      st.mirror.freeRows.length := by
  cases hold : st.mirror.idOfSlot slot with
  | none =>
    rw [vacate_of_empty hold]
    simp [soleCopy, hold]
  | some old =>
    cases hrow : st.mirror.poolRowOfId old with
    | some row =>
      rw [vacate_of_duplicate hold hrow]
      simp [soleCopy, hold, hrow, dropOccupant, bumpBufferFreeEvictions]
    | none =>
      cases hfree : st.mirror.freeRows with
      | nil => exact absurd hfree (hroom (by simp [soleCopy, hold, hrow]))
      | cons row free =>
        rw [vacate_of_sole hold hrow hfree]
        simp [soleCopy, hold, hrow, dropOccupant, writeBack]

/-! ### A whole half -/

/-- What the write-back of some slots has done, when there was a row for every sole copy. -/
structure Vacated (g : Geometry) (data : Nat → β) (st : PrefillState β) (slots : List Nat)
    (st' : PrefillState β) : Prop where
  assembling : Assembling g data st'
  gpu : st'.mirror.gpu = st.mirror.gpu
  occupants : ∀ slot, st'.mirror.idOfSlot slot =
    if slot ∈ slots then none else st.mirror.idOfSlot slot
  others : ∀ slot ∉ slots, soleCopy st'.mirror slot = soleCopy st.mirror slot
  freeRows : st'.mirror.freeRows.length + soleCopies st.mirror slots = st.mirror.freeRows.length

theorem vacated_foldl (h : Assembling g data st) {slots : List Nat} (hnd : slots.Nodup)
    (hroom : soleCopies st.mirror slots ≤ st.mirror.freeRows.length) :
    Vacated g data st slots (slots.foldl vacate st) := by
  induction slots generalizing st with
  | nil => exact ⟨h, rfl, fun _ => by simp, fun _ _ => rfl, rfl⟩
  | cons slot slots ih =>
    obtain ⟨hnot, hnd⟩ := List.nodup_cons.mp hnd
    have hcount : soleCopies st.mirror (slot :: slots) =
        soleCopies st.mirror slots + if soleCopy st.mirror slot then 1 else 0 :=
      List.countP_cons
    have hone : soleCopy st.mirror slot = true → st.mirror.freeRows ≠ [] := by
      intro hs hnil
      rw [hcount, hs, if_pos rfl, hnil, List.length_nil] at hroom
      omega
    have hfree := vacate_freeRows st slot hone
    have hkeep : soleCopies (vacate st slot).mirror slots = soleCopies st.mirror slots :=
      List.countP_congr fun s hs => by
        rw [vacate_soleCopy h.covered.slots (ne_of_mem_of_not_mem hs hnot)]
    have hrest := ih (vacate_keeps h slot hone) hnd (by rw [hkeep]; omega)
    rw [List.foldl_cons]
    refine ⟨hrest.assembling, hrest.gpu.trans (vacate_gpu st slot), fun s => ?_, fun s hs => ?_, ?_⟩
    · rw [hrest.occupants, vacate_idOfSlot]
      by_cases hs : s = slot
      · simp [hs]
      · simp [hs, update_of_ne hs]
    · rw [List.mem_cons, not_or] at hs
      rw [hrest.others s hs.2, vacate_soleCopy h.covered.slots hs.1]
    · have := hrest.freeRows
      omega

/-! ## Filling a half -/

variable (g) in
/-- The rows of a layer that the snapshot has on the GPU: `(buffer row, slot)`. -/
def layerHits (st : PrefillState β) (layerId bufferId : Nat) : List (Nat × Nat) :=
  (List.range g.numExperts).filterMap fun e =>
    (st.slotSnapshot (layerId * g.numExperts + e)).map (bufferId * g.numExperts + e, ·)

variable (g) in
/-- The others: `(buffer row, pool row)`. -/
def layerMisses (st : PrefillState β) (layerId bufferId : Nat) : List (Nat × Nat) :=
  ((List.range g.numExperts).filter fun e =>
      st.slotSnapshot (layerId * g.numExperts + e) = none).filterMap fun e =>
    (st.poolSnapshot (layerId * g.numExperts + e)).map (bufferId * g.numExperts + e, ·)

/-- Copies into the rows of a half, one for each of some experts. -/
theorem copyRows_layer {src dst : Nat → β} {experts : List Nat} {at' : Nat → Option Nat}
    {base : Nat} (hnd : experts.Nodup) (e : Nat) :
    copyRows src (experts.filterMap fun e => (at' e).map (base + e, ·)) dst (base + e) =
      match at' e with
      | some r => if e ∈ experts then src r else dst (base + e)
      | none => dst (base + e) := by
  have hkeys : ((experts.filterMap fun e => (at' e).map (base + e, ·)).map Prod.fst).Nodup := by
    rw [List.map_filterMap]
    refine List.Nodup.filterMap (fun a b x ha hb => ?_) hnd
    simp only [Option.map_map, Option.mem_def, Option.map_eq_some_iff, Function.comp_apply] at ha hb
    obtain ⟨r, -, rfl⟩ := ha
    obtain ⟨r', -, heq⟩ := hb
    omega
  by_cases hmem : ∃ r, at' e = some r ∧ e ∈ experts
  · obtain ⟨r, hr, he⟩ := hmem
    rw [copyRows_of_mem hkeys (s := r), hr]
    · simp [he]
    · exact List.mem_filterMap.mpr ⟨e, he, by rw [hr]; rfl⟩
  · rw [copyRows_of_not_mem]
    · cases hr : at' e with
      | none => rfl
      | some r =>
        have he : e ∉ experts := fun he => hmem ⟨r, hr, he⟩
        simp [he]
    · intro p hp heq
      obtain ⟨e', he', hp⟩ := List.mem_filterMap.mp hp
      obtain ⟨r, hr, rfl⟩ := Option.map_eq_some_iff.mp hp
      obtain rfl : e' = e := by simpa using heq
      exact hmem ⟨r, hr, he'⟩

/-- The rows that a fill writes are those of its half. -/
theorem copyRows_outside {src dst : Nat → β} {experts : List Nat} {at' : Nat → Option Nat}
    {bufferId slot : Nat} (hexp : ∀ e ∈ experts, e < g.numExperts)
    (hslot : slot ∉ halfSlots g bufferId) :
    copyRows src (experts.filterMap fun e => (at' e).map (bufferId * g.numExperts + e, ·)) dst
      slot = dst slot := by
  refine copyRows_of_not_mem fun p hp heq => hslot ?_
  obtain ⟨e, he, hp⟩ := List.mem_filterMap.mp hp
  obtain ⟨r, -, rfl⟩ := Option.map_eq_some_iff.mp hp
  have := hexp e he
  rw [halfSlots, List.mem_range'_1]
  dsimp only at heq
  omega

/-- The result of a fill. -/
structure Filled (g : Geometry) (data : Nat → β) (st : PrefillState β) (layerId bufferId : Nat)
    (st' : PrefillState β) : Prop where
  vacated : ∃ st₁, Vacated g data st (halfSlots g bufferId) st₁ ∧
    st'.mirror = { st₁.mirror with gpu := st'.mirror.gpu }
  assembling : Assembling g data st'
  exact : ∀ e < g.numExperts,
    st'.mirror.gpu (bufferId * g.numExperts + e) = data (layerId * g.numExperts + e)

theorem id_lt_total {layerId e : Nat} (hl : layerId < g.numLayers) (he : e < g.numExperts) :
    layerId * g.numExperts + e < g.total := by
  have := Nat.mul_le_mul_right g.numExperts (Nat.succ_le_of_lt hl)
  rw [Geometry.total]
  rw [Nat.succ_mul] at this
  omega

/-- **A fill is exact when there is a free row for every sole copy in its half.** -/
theorem prefetch_exact (h : Assembling g data st) {layerId bufferId : Nat}
    (hl : layerId < g.numLayers)
    (hroom : soleCopies st.mirror (halfSlots g bufferId) ≤ st.mirror.freeRows.length) :
    ∃ st', prefetchSplitMirror g layerId bufferId st = .ok st' ∧
      Filled g data st layerId bufferId st' := by
  have hvac := vacated_foldl h (List.nodup_range' (s := bufferId * g.numExperts)
    (n := g.numExperts)) hroom
  change Vacated g data st (halfSlots g bufferId) ((halfSlots g bufferId).foldl vacate st) at hvac
  rw [← mirrorWritebackBuffer_eq] at hvac
  unfold prefetchSplitMirror
  generalize mirrorWritebackBuffer g bufferId st = st₁ at hvac
  have ha := hvac.assembling
  -- every expert of the layer that is not on the GPU has a row
  have hrow : ∀ e < g.numExperts, st₁.slotSnapshot (layerId * g.numExperts + e) = none →
      ∃ row, st₁.poolSnapshot (layerId * g.numExperts + e) = some row ∧
        st₁.mirror.pool row = data (layerId * g.numExperts + e) := by
    intro e he hnone
    rw [ha.slotSnapshot] at hnone
    rcases ha.covered.covered _ (id_lt_total hl he) with hs | hr
    · exact absurd hnone hs
    · obtain ⟨row, hrow⟩ := Option.ne_none_iff_exists'.mp hr
      exact ⟨row, by rw [ha.poolSnapshot, hrow], ha.poolBytes hrow⟩
  have hfind : ((List.range g.numExperts).filter fun e =>
      st₁.slotSnapshot (layerId * g.numExperts + e) = none).find? (fun e =>
        st₁.poolSnapshot (layerId * g.numExperts + e) = none) = none := by
    refine List.find?_eq_none.mpr fun e he => ?_
    simp only [List.mem_filter, List.mem_range, decide_eq_true_eq] at he
    obtain ⟨row, hr, -⟩ := hrow e he.1 he.2
    simp [hr]
  simp only [hfind]
  refine ⟨_, rfl, ⟨st₁, hvac, rfl⟩, ⟨?_, ha.drained, ha.slotSnapshot, ha.poolSnapshot⟩, ?_⟩
  · -- no occupant sits in the half that is filled
    refine { ha.covered with slotBytes := fun id slot hslot => ?_ }
    have hout : slot ∉ halfSlots g bufferId := by
      intro hmem
      have := hvac.occupants slot
      rw [if_pos hmem, (ha.covered.slots _ _).mp hslot] at this
      simp at this
    refine (copyRows_outside (fun e he => ?_) hout).trans
      ((copyRows_outside (fun e he => ?_) hout).trans (ha.covered.slotBytes id slot hslot))
    · exact List.mem_range.mp (List.mem_filter.mp he).1
    · exact List.mem_range.mp he
  · intro e he
    refine (copyRows_layer (List.nodup_range.filter _) e).trans ?_
    cases hs : st₁.slotSnapshot (layerId * g.numExperts + e) with
    | some slot =>
      have hhit : copyRows st₁.mirror.gpu (layerHits g st₁ layerId bufferId) st₁.mirror.gpu
          (bufferId * g.numExperts + e) = data (layerId * g.numExperts + e) := by
        refine (copyRows_layer List.nodup_range e).trans ?_
        rw [hs]
        simp only [List.mem_range, he, if_true]
        exact ha.covered.slotBytes _ _ (ha.slotSnapshot ▸ hs)
      cases st₁.poolSnapshot (layerId * g.numExperts + e) with
      | none => exact hhit
      | some row =>
        simp only [List.mem_filter, hs, reduceCtorEq, decide_false, Bool.false_eq_true, and_false,
          if_false]
        exact hhit
    | none =>
      obtain ⟨row, hr, hbytes⟩ := hrow e he hs
      rw [hr]
      simp [he, hs, hbytes]

theorem Filled.soleCopy_eq {st st' : PrefillState β} {layerId bufferId : Nat}
    (h : Filled g data st layerId bufferId st') (slot : Nat) :
    soleCopy st'.mirror slot =
      if slot ∈ halfSlots g bufferId then false else soleCopy st.mirror slot := by
  obtain ⟨st₁, hvac, heq⟩ := h.vacated
  have hsame : soleCopy st'.mirror slot = soleCopy st₁.mirror slot := by
    rw [heq]
    rfl
  rw [hsame]
  split
  · rename_i hmem
    have := hvac.occupants slot
    rw [if_pos hmem] at this
    simp [soleCopy, this]
  · rename_i hmem
    exact hvac.others slot hmem

theorem Filled.freeRows_length {st st' : PrefillState β} {layerId bufferId : Nat}
    (h : Filled g data st layerId bufferId st') :
    st'.mirror.freeRows.length + soleCopies st.mirror (halfSlots g bufferId) =
      st.mirror.freeRows.length := by
  obtain ⟨st₁, hvac, heq⟩ := h.vacated
  rw [heq]
  exact hvac.freeRows

/-! ## A whole chunk -/

variable (g) in
/-- The slots of the halves that a chunk fills. -/
def chunkSlots (halves : List Nat) : List Nat :=
  ([0, 1].filter (· ∈ halves)).flatMap (halfSlots g)

variable (g) in
/-- There is a free row for every sole copy that the chunk overwrites. -/
def HasRoom (m : Mirror β) (halves : List Nat) : Prop :=
  soleCopies m (chunkSlots g halves) ≤ m.freeRows.length

theorem halfSlots_disjoint {slot b b' : Nat} (h : slot ∈ halfSlots g b) (h' : slot ∈ halfSlots g b') :
    b = b' := by
  rw [halfSlots, List.mem_range'_1] at h h'
  by_contra hne
  rcases Nat.lt_or_gt_of_ne hne with hlt | hlt
  · have := Nat.mul_le_mul_right g.numExperts (Nat.succ_le_of_lt hlt)
    rw [Nat.succ_mul] at this
    omega
  · have := Nat.mul_le_mul_right g.numExperts (Nat.succ_le_of_lt hlt)
    rw [Nat.succ_mul] at this
    omega

theorem soleCopies_chunk (m : Mirror β) (halves : List Nat) :
    soleCopies m (chunkSlots g halves) =
      (if 0 ∈ halves then soleCopies m (halfSlots g 0) else 0) +
        if 1 ∈ halves then soleCopies m (halfSlots g 1) else 0 := by
  by_cases h0 : 0 ∈ halves <;> by_cases h1 : 1 ∈ halves <;>
    simp [soleCopies, chunkSlots, h0, h1]

/-- A fill leaves the sole copies of the other half. -/
theorem Filled.soleCopies_half {st st' : PrefillState β} {layerId bufferId : Nat}
    (h : Filled g data st layerId bufferId st') (b : Nat) :
    soleCopies st'.mirror (halfSlots g b) =
      if b = bufferId then 0 else soleCopies st.mirror (halfSlots g b) := by
  by_cases hb : b = bufferId
  · subst hb
    rw [if_pos rfl, soleCopies, List.countP_eq_zero]
    intro slot hslot
    rw [h.soleCopy_eq, if_pos hslot]
    exact Bool.false_ne_true
  · rw [if_neg hb]
    refine List.countP_congr fun slot hslot => ?_
    rw [h.soleCopy_eq, if_neg fun hmem => hb (halfSlots_disjoint hslot hmem)]

/-- A half of the chunk has room, and what is left has room for the rest. -/
theorem HasRoom.half {m : Mirror β} {halves : List Nat} (h : HasRoom g m halves) {b : Nat}
    (hb : b < 2) (hmem : b ∈ halves) :
    soleCopies m (halfSlots g b) ≤ m.freeRows.length := by
  rw [HasRoom, soleCopies_chunk] at h
  have : b = 0 ∨ b = 1 := by omega
  rcases this with rfl | rfl
  · rw [if_pos hmem] at h
    omega
  · rw [if_pos hmem] at h
    omega

theorem Filled.hasRoom {st st' : PrefillState β} {layerId bufferId : Nat}
    (h : Filled g data st layerId bufferId st') {halves : List Nat}
    (hroom : HasRoom g st.mirror halves) (hb : bufferId < 2) (hmem : bufferId ∈ halves) :
    HasRoom g st'.mirror halves := by
  have hfree := h.freeRows_length
  rw [HasRoom, soleCopies_chunk] at hroom ⊢
  rw [h.soleCopies_half, h.soleCopies_half]
  have : bufferId = 0 ∨ bufferId = 1 := by omega
  rcases this with rfl | rfl
  · simp only [if_pos hmem, if_true, if_neg (show (1 : Nat) ≠ 0 by decide)] at hroom ⊢
    omega
  · simp only [if_pos hmem, if_true, if_neg (show (0 : Nat) ≠ 1 by decide)] at hroom ⊢
    omega

theorem prefetchAll_keeps (h : Assembling g data st) {calls : List (Nat × Nat)} {halves : List Nat}
    (hcalls : ∀ c ∈ calls, c.1 < g.numLayers ∧ c.2 < 2 ∧ c.2 ∈ halves)
    (hroom : HasRoom g st.mirror halves) :
    ∃ st', prefetchAll g calls st = .ok st' ∧ Assembling g data st' ∧
      HasRoom g st'.mirror halves := by
  induction calls generalizing st with
  | nil => exact ⟨st, rfl, h, hroom⟩
  | cons c calls ih =>
    obtain ⟨layerId, bufferId⟩ := c
    obtain ⟨hl, hb, hmem⟩ := hcalls _ List.mem_cons_self
    obtain ⟨st₁, hok, hfill⟩ := prefetch_exact h hl (hroom.half hb hmem)
    obtain ⟨st', hall, ha, hr⟩ := ih hfill.assembling
      (fun c hc => hcalls c (List.mem_cons_of_mem _ hc)) (hfill.hasRoom hroom hb hmem)
    refine ⟨st', ?_, ha, hr⟩
    rw [prefetchAll, hok]
    exact hall

/-- **In a chunk that has room, every call fills its half with the layer it is for, and
coverage is kept.** -/
theorem chunk_exact {m : Mirror β} (h : Covered g data m) {calls : List (Nat × Nat)}
    (hcalls : ∀ c ∈ calls, c.1 < g.numLayers ∧ c.2 < 2)
    (hroom : HasRoom g m (calls.map Prod.snd)) {before after : List (Nat × Nat)}
    {layerId bufferId : Nat} (hsplit : calls = before ++ (layerId, bufferId) :: after) :
    ∃ st st', prefetchAll g before (beginPrefill g m) = .ok st ∧
      prefetchSplitMirror g layerId bufferId st = .ok st' ∧
      (∀ e < g.numExperts,
        st'.mirror.gpu (bufferId * g.numExperts + e) = data (layerId * g.numExperts + e)) ∧
      Covered g data st'.mirror := by
  have hmem : ∀ c ∈ calls, c.1 < g.numLayers ∧ c.2 < 2 ∧ c.2 ∈ calls.map Prod.snd :=
    fun c hc => ⟨(hcalls c hc).1, (hcalls c hc).2, List.mem_map_of_mem hc⟩
  have hcall : (layerId, bufferId) ∈ calls := by simp [hsplit]
  have hbefore : ∀ c ∈ before, c.1 < g.numLayers ∧ c.2 < 2 ∧ c.2 ∈ calls.map Prod.snd :=
    fun c hc => hmem c (by simp [hsplit, hc])
  obtain ⟨st, hok, ha, hr⟩ := prefetchAll_keeps (beginPrefill_assembling h) hbefore hroom
  obtain ⟨hl, hb, hin⟩ := hmem _ hcall
  obtain ⟨st', hok', hfill⟩ := prefetch_exact ha hl (hr.half hb hin)
  exact ⟨st, st', hok, hok', hfill.exact, hfill.assembling.covered⟩

/-! ### A chunk with room, and one without -/

/-- Two layers of one expert: the first one on the GPU only, in the first half. -/
def roomyGeometry : Geometry :=
  { numLayers := 2, numExperts := 1, cacheSize := 2, capacity := 2, reserveRows := 1
    wbStageRows := 0 }

def roomyMirror : Mirror Nat where
  slotForId := fun | 0 => some 0 | _ => none
  idOfSlot := fun | 0 => some 0 | _ => none
  poolRowOfId := fun | 1 => some 0 | _ => none
  idOfPoolRow := fun | 0 => some 1 | _ => none
  freeRows := [1]
  gpu := fun _ => 0
  pool := fun _ => 1
  stage := fun _ => 0

theorem roomyMirror_covered : Covered roomyGeometry id roomyMirror where
  slots := by rintro (_ | i) (_ | k) <;> simp [roomyMirror]
  rows := by rintro (_ | _ | i) (_ | k) <;> simp [roomyMirror]
  free := by
    refine ⟨by decide, fun k => ?_⟩
    rcases k with _ | _ | k <;> simp [roomyMirror, roomyGeometry]
  published := rfl
  covered := by decide
  slotBytes := by rintro (_ | i) (_ | k) h <;> simp [roomyMirror] at h ⊢
  rowBytes := by rintro (_ | _ | i) (_ | k) h <;> simp [roomyMirror] at h ⊢ <;> rfl

/-- The second fill of the chunk, the first one having overwritten the only copy. -/
theorem chunk_exact_roomy :
    ∃ st st', prefetchAll roomyGeometry [(0, 0)] (beginPrefill roomyGeometry roomyMirror) = .ok st ∧
      prefetchSplitMirror roomyGeometry 0 1 st = .ok st' ∧
      (∀ e < 1, st'.mirror.gpu (1 * 1 + e) = id (0 * 1 + e)) ∧
      Covered roomyGeometry id st'.mirror := by
  have hcalls : ∀ c ∈ [(0, 0), (0, 1)], c.1 < roomyGeometry.numLayers ∧ c.2 < 2 := by decide
  have hroom : HasRoom roomyGeometry roomyMirror ([(0, 0), (0, 1)].map Prod.snd) := by
    unfold HasRoom
    decide
  have hsplit : [(0, 0), (0, 1)] = [(0, 0)] ++ (0, 1) :: ([] : List (Nat × Nat)) := rfl
  exact chunk_exact roomyMirror_covered hcalls hroom hsplit

/-- Four layers of one expert: a sole copy in the first half, and every pool row owned. -/
def fullGeometry : Geometry :=
  { numLayers := 4, numExperts := 1, cacheSize := 3, capacity := 3, reserveRows := 2
    wbStageRows := 0 }

def fullMirror : Mirror Nat where
  slotForId := fun | 0 => some 0 | 1 => some 1 | 2 => some 2 | _ => none
  idOfSlot := fun | 0 => some 0 | 1 => some 1 | 2 => some 2 | _ => none
  poolRowOfId := fun | 1 => some 1 | 2 => some 2 | 3 => some 0 | _ => none
  idOfPoolRow := fun | 0 => some 3 | 1 => some 1 | 2 => some 2 | _ => none
  freeRows := []
  gpu := id
  pool := fun | 0 => 3 | k => k
  stage := id

theorem fullMirror_covered : Covered fullGeometry id fullMirror where
  slots := by rintro (_ | _ | _ | i) (_ | _ | _ | k) <;> simp [fullMirror]
  rows := by rintro (_ | _ | _ | _ | i) (_ | _ | _ | k) <;> simp [fullMirror]
  free := by
    refine ⟨by decide, fun k => ?_⟩
    rcases k with _ | _ | _ | k <;> simp [fullMirror, fullGeometry]
  published := rfl
  covered := by decide
  slotBytes := by rintro (_ | _ | _ | i) (_ | _ | _ | k) h <;> simp [fullMirror] at h ⊢
  rowBytes := by rintro (_ | _ | _ | _ | i) (_ | _ | _ | k) h <;> simp [fullMirror] at h ⊢ <;> rfl

/-- Without a free row the only copy is dropped, and its layer cannot be assembled. -/
theorem full_pool_loses_coverage :
    ¬∀ (g : Geometry) (data : Nat → Nat) (m : Mirror Nat), Covered g data m →
      ∀ calls : List (Nat × Nat), (∀ c ∈ calls, c.1 < g.numLayers ∧ c.2 < 2) →
      ∀ before layerId bufferId after, calls = before ++ (layerId, bufferId) :: after →
        ∃ st st', prefetchAll g before (beginPrefill g m) = .ok st ∧
          prefetchSplitMirror g layerId bufferId st = .ok st' ∧
          (∀ e < g.numExperts,
            st'.mirror.gpu (bufferId * g.numExperts + e) = data (layerId * g.numExperts + e)) ∧
          Covered g data st'.mirror := by
  intro h
  obtain ⟨st, st', hst, hst', -⟩ := h fullGeometry id fullMirror fullMirror_covered [(0, 0)]
    (by decide) [] 0 0 [] rfl
  obtain rfl : beginPrefill fullGeometry fullMirror = st := Except.ok.inj hst
  have herr : prefetchSplitMirror fullGeometry 0 0 (beginPrefill fullGeometry fullMirror) =
      .error { expert := 0, layer := 0 } := rfl
  rw [herr] at hst'
  simp at hst'

end FreeToken.Mirror
