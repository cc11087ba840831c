import FreeToken.Experts.Compaction
import FreeToken.Mirror.WarmStart

/-!
# The refill before an arena shrink

An arena that hands its slots from `n` on to the KV cache moves the residents worth keeping below
`n`, and then gives a pool row to every resident above that has none: a free row, or the row of an
expert that stays on the GPU. Main results:

* `compactBeforeShrink_covered`: the moves lose no copy, and leave no slot below `n` emptier.
* `uncovered_le_spare`: the floor `min_gpu_slots` leaves enough rows.
* `shrink_refills`: the refill goes through, and every expert without a slot below `n` has a row.
-/

namespace FreeToken.Mirror

open FreeToken.Lib FreeToken.Experts Function

variable {β ρ : Type} [LinearOrder ρ] {g : Geometry} {n current : Nat}

/-! ## Compaction -/

/-- The experts that a plan moves, each with its new slot. -/
def movedIds (m : Mirror β) (p : CompactionPlan) : List (Nat × Nat) :=
  p.moves.filterMap fun mv => (m.idOfSlot mv.1).map (·, mv.2)

/-- The moves of a plan, on the maps and the bytes. -/
def applyPlan (p : CompactionPlan) (m : Mirror β) : Mirror β :=
  { m with
    gpu := copyRows m.gpu (p.moves.map Prod.swap) m.gpu
    slotForId := copyRows some (movedIds m p)
      (copyRows (fun _ => none) (p.displaced.map fun id => (id, id)) m.slotForId)
    -- the sources are empty now: the shrink must not clear the moved experts' slots
    idOfSlot := copyRows (fun _ => none) (p.moves.map fun mv => (mv.1, mv.1))
      (copyRows m.idOfSlot (p.moves.map Prod.swap) m.idOfSlot) }

/-- `compact_before_shrink`, with the rank of each slot; `enabled` is off where the arena has size
classes, or by `FREETOKEN_ARENA_COMPACTION`. -/
def compactBeforeShrink (g : Geometry) (enabled : Bool) (rank : Nat → ρ) (n current : Nat)
    (m : Mirror β) : Mirror β :=
  if enabled then
    applyPlan (planCompaction m.idOfSlot rank (fun flat => (m.poolRowOfId flat).isSome)
      (min g.prefillBase n) n current) m
  else m

/-! ## The refill -/

/-- What stops a refill. -/
structure ShortOfRows where
  uncovered : Nat
  spare : Nat

/-- The residents of the slots from `start` to `stop`, with their slots. -/
def doomedSlots (m : Mirror β) (start stop : Nat) : List (Nat × Nat) :=
  (List.range' start (stop - start)).filterMap fun slot => (m.idOfSlot slot).map (·, slot)

/-- The doomed residents without a pool row. -/
def uncoveredIds (m : Mirror β) (start stop : Nat) : List Nat :=
  ((doomedSlots m start stop).map Prod.fst).filter fun flat => m.poolRowOfId flat = none

/-- The residents that are not doomed. -/
def survivors (g : Geometry) (m : Mirror β) (start stop : Nat) : List Nat :=
  ((List.range g.cacheSize).filterMap m.idOfSlot).filter
    (· ∉ (doomedSlots m start stop).map Prod.fst)

/-- The rows that are free or hold the duplicate of a survivor. -/
def spareRows (g : Geometry) (m : Mirror β) (start stop : Nat) : List Nat :=
  (List.range g.capacity).filter fun row =>
    match m.idOfPoolRow row with
    | none => true
    | some owner => owner ∈ survivors g m start stop ∧ m.poolRowOfId owner = some row

/-- A row changes its owner; its bytes are there already, or are read. -/
def giveRow (data : Nat → β) (gpu : Bool) (m : Mirror β) (p : Nat × Nat) : Mirror β :=
  let fwd := match m.idOfPoolRow p.2 with
    | none => m.poolRowOfId
    | some old => update m.poolRowOfId old none
  { m with
    pool := if gpu then m.pool else update m.pool p.2 (data p.1)
    poolRowOfId := update fwd p.1 (some p.2)
    idOfPoolRow := update m.idOfPoolRow p.2 (some p.1) }

/-- `_mirror_refill_uncovered`: how many rows it filled. `gpu` copies the doomed slots' bytes in one
launch, where the rows are else read from the checkpoint. -/
def mirrorRefillUncovered (g : Geometry) (data : Nat → β) (start stop : Nat) (gpu : Bool)
    (m : Mirror β) : Except ShortOfRows (Nat × Mirror β) :=
  let m := m.drainWritebacks g
  let doomed := doomedSlots m start stop
  let uncovered := uncoveredIds m start stop
  let spare := spareRows g m start stop
  if uncovered = [] then .ok (0, m)
  else if spare.length < uncovered.length then .error ⟨uncovered.length, spare.length⟩
  else
    let rows := spare.take uncovered.length
    let slotOf := copyRows some doomed fun _ => none
    let m := if gpu then
        { m with pool := copyRows m.gpu (rows.zip (uncovered.filterMap slotOf)) m.pool }
      else m
    .ok (uncovered.length,
      mirrorPublishFreeRows g ((uncovered.zip rows).foldl (giveRow data gpu) m))

/-! ## The maps are within their bounds -/

/-- No slot from `current` on has a resident, and the maps name the mirror's experts and rows. -/
structure InArena (g : Geometry) (current : Nat) (m : Mirror β) : Prop where
  slot : ∀ s id, m.idOfSlot s = some id → s < current ∧ id < g.total
  row : ∀ row id, m.idOfPoolRow row = some id → row < g.capacity ∧ id < g.total

/-- The slots below `k` without a resident. -/
def emptySlots (m : Mirror β) (k : Nat) : List Nat :=
  (List.range k).filter fun s => (m.idOfSlot s).isNone

/-! ## Moves lose no copy -/

/-- Moves from slots above `n` to slots below, that overwrite none but residents with a row. -/
structure MovesDown (n : Nat) (m : Mirror β) (p : CompactionPlan) : Prop where
  src : (p.moves.map Prod.fst).Nodup
  dst : (p.moves.map Prod.snd).Nodup
  down : ∀ mv ∈ p.moves, n ≤ mv.1 ∧ mv.2 < n ∧ ∃ id, m.idOfSlot mv.1 = some id
  displaced : p.displaced = p.moves.filterMap fun mv => m.idOfSlot mv.2
  copied : ∀ id ∈ p.displaced, m.poolRowOfId id ≠ none

theorem planCompaction_movesDown (m : Mirror β) (rank : Nat → ρ) (lo n current : Nat) :
    MovesDown n m (planCompaction m.idOfSlot rank (fun flat => (m.poolRowOfId flat).isSome)
      lo n current) where
  src := moves_src_nodup
  dst := moves_dst_nodup
  down mv hmv := by
    obtain ⟨⟨hsrc, hsome⟩, hdst, -⟩ := moves_between hmv
    exact ⟨hsrc.1, hdst.2, Option.isSome_iff_exists.mp hsome⟩
  displaced := rfl
  copied id hid := by
    obtain ⟨mv, hmv, hid⟩ := List.mem_filterMap.mp hid
    have := (moves_between hmv).2.2 id hid
    exact Option.isSome_iff_ne_none.mp this

/-- Rows that all get one value. -/
theorem copyRows_const {v : β} {pairs : List (Nat × Nat)} {dst : Nat → β} {r : Nat}
    (h : r ∈ pairs.map Prod.fst) : copyRows (fun _ => v) pairs dst r = v := by
  induction pairs generalizing dst with
  | nil => simp at h
  | cons q pairs ih =>
    by_cases hrest : r ∈ pairs.map Prod.fst
    · exact ih hrest
    · have heq : r = q.1 := by simpa [hrest] using h
      have hlast : copyRows (fun _ => v) pairs (update dst q.1 v) r = update dst q.1 v r :=
        copyRows_of_not_mem fun p hp hp1 => hrest (hp1 ▸ List.mem_map_of_mem hp)
      refine hlast.trans ?_
      rw [heq, update_self]

section Moves

variable {m : Mirror β} {p : CompactionPlan}

theorem mem_movedIds {id dst : Nat} :
    (id, dst) ∈ movedIds m p ↔ ∃ src, (src, dst) ∈ p.moves ∧ m.idOfSlot src = some id := by
  simp only [movedIds, List.mem_filterMap, Option.map_eq_some_iff, Prod.mk.injEq, Prod.exists]
  constructor
  · rintro ⟨src, dst', hmv, id', hid, rfl, rfl⟩
    exact ⟨src, hmv, hid⟩
  · rintro ⟨src, hmv, hid⟩
    exact ⟨src, dst, hmv, id, hid, rfl, rfl⟩

theorem movedIds_nodup (hslots : Paired m.slotForId m.idOfSlot)
    (hsrc : (p.moves.map Prod.fst).Nodup) : ((movedIds m p).map Prod.fst).Nodup := by
  have hids : (movedIds m p).map Prod.fst = (p.moves.map Prod.fst).filterMap m.idOfSlot := by
    rw [movedIds, List.map_filterMap, List.filterMap_map]
    refine List.filterMap_congr fun mv _ => ?_
    cases h : m.idOfSlot mv.1 <;> simp [h]
  rw [hids]
  exact hsrc.filterMap fun s s' id hs hs' => hslots.symm.inj hs hs'

/-- A target has the resident of its source, a source is empty, and no other slot changes. -/
theorem applyPlan_idOfSlot (h : MovesDown n m p) (s : Nat) :
    (∀ src, (src, s) ∈ p.moves → (applyPlan p m).idOfSlot s = m.idOfSlot src) ∧
      (s ∈ p.moves.map Prod.fst → (applyPlan p m).idOfSlot s = none) ∧
      (s ∉ p.moves.map Prod.fst → s ∉ p.moves.map Prod.snd →
        (applyPlan p m).idOfSlot s = m.idOfSlot s) := by
  have hkeys : (p.moves.map fun mv => (mv.1, mv.1)).map Prod.fst = p.moves.map Prod.fst := by
    simp
  have hstay : s ∉ p.moves.map Prod.fst → (applyPlan p m).idOfSlot s =
      copyRows m.idOfSlot (p.moves.map Prod.swap) m.idOfSlot s := by
    intro hs
    change copyRows (fun _ => none) (p.moves.map fun mv => (mv.1, mv.1))
      (copyRows m.idOfSlot (p.moves.map Prod.swap) m.idOfSlot) s = _
    refine copyRows_of_not_mem fun q hq heq => hs ?_
    rw [← hkeys, ← heq]
    exact List.mem_map_of_mem hq
  refine ⟨fun src hmv => ?_, fun hs => ?_, fun hs hd => ?_⟩
  · have hs : s ∉ p.moves.map Prod.fst := by
      intro hs
      obtain ⟨mv, hmv', rfl⟩ := List.mem_map.mp hs
      have h1 := (h.down mv hmv').1
      have h2 := (h.down _ hmv).2.1
      omega
    rw [hstay hs]
    refine copyRows_of_mem ?_ (List.mem_map.mpr ⟨_, hmv, rfl⟩)
    rw [List.map_map]
    exact h.dst
  · exact copyRows_const (by rwa [hkeys])
  · rw [hstay hs]
    refine copyRows_of_not_mem fun q hq heq => hd ?_
    obtain ⟨mv, hmv, rfl⟩ := List.mem_map.mp hq
    exact List.mem_map.mpr ⟨mv, hmv, heq⟩

/-- A moved expert has its new slot, an overwritten one has none, and no other changes. -/
theorem applyPlan_slotForId (hslots : Paired m.slotForId m.idOfSlot) (h : MovesDown n m p)
    (id : Nat) :
    (∀ dst, (id, dst) ∈ movedIds m p → (applyPlan p m).slotForId id = some dst) ∧
      (id ∉ (movedIds m p).map Prod.fst → id ∈ p.displaced →
        (applyPlan p m).slotForId id = none) ∧
      (id ∉ (movedIds m p).map Prod.fst → id ∉ p.displaced →
        (applyPlan p m).slotForId id = m.slotForId id) := by
  have hstay : id ∉ (movedIds m p).map Prod.fst → (applyPlan p m).slotForId id =
      copyRows (fun _ => none) (p.displaced.map fun id => (id, id)) m.slotForId id := by
    intro hid
    exact copyRows_of_not_mem fun q hq heq => hid (heq ▸ List.mem_map_of_mem hq)
  refine ⟨fun dst hmem => copyRows_of_mem (movedIds_nodup hslots h.src) hmem, fun hid hd => ?_,
    fun hid hd => ?_⟩
  · rw [hstay hid]
    exact copyRows_const (by simpa using hd)
  · rw [hstay hid]
    refine copyRows_of_not_mem fun q hq heq => hd ?_
    obtain ⟨id', hid', rfl⟩ := List.mem_map.mp hq
    exact heq ▸ hid'

/-- The maps still name the same pairs. -/
theorem applyPlan_paired (hslots : Paired m.slotForId m.idOfSlot) (h : MovesDown n m p) :
    Paired (applyPlan p m).slotForId (applyPlan p m).idOfSlot := by
  intro id s
  obtain ⟨hmoved, hgone, hkept⟩ := applyPlan_slotForId hslots h id
  obtain ⟨htarget, hsource, hother⟩ := applyPlan_idOfSlot h s
  constructor
  · intro hs
    by_cases hid : id ∈ (movedIds m p).map Prod.fst
    · obtain ⟨⟨id', dst⟩, hmem, rfl⟩ := List.mem_map.mp hid
      obtain rfl : dst = s := by simpa using (hmoved dst hmem).symm.trans hs
      obtain ⟨src, hmv, hsrc⟩ := mem_movedIds.mp hmem
      rw [htarget src hmv, hsrc]
    · by_cases hd : id ∈ p.displaced
      · rw [hgone hid hd] at hs
        cases hs
      · rw [hkept hid hd, hslots] at hs
        rw [hother, hs]
        · intro hsrc
          obtain ⟨mv, hmv, rfl⟩ := List.mem_map.mp hsrc
          exact hid (List.mem_map.mpr ⟨(id, mv.2), mem_movedIds.mpr ⟨mv.1, hmv, hs⟩, rfl⟩)
        · intro hdst
          obtain ⟨mv, hmv, rfl⟩ := List.mem_map.mp hdst
          rw [h.displaced] at hd
          exact hd (List.mem_filterMap.mpr ⟨mv, hmv, hs⟩)
  · intro hs
    have hsrc : s ∉ p.moves.map Prod.fst := by
      intro hmem
      rw [hsource hmem] at hs
      cases hs
    by_cases hdst : s ∈ p.moves.map Prod.snd
    · obtain ⟨⟨src, s⟩, hmv, rfl⟩ := List.mem_map.mp hdst
      rw [htarget src hmv] at hs
      exact hmoved s (mem_movedIds.mpr ⟨src, hmv, hs⟩)
    · rw [hother hsrc hdst] at hs
      rw [hkept, hslots, hs]
      · intro hid
        obtain ⟨⟨id', dst⟩, hmem, rfl⟩ := List.mem_map.mp hid
        obtain ⟨src, hmv, hsrc'⟩ := mem_movedIds.mp hmem
        have := hslots.symm.inj hs hsrc'
        exact hsrc (List.mem_map.mpr ⟨(src, dst), hmv, this.symm⟩)
      · intro hd
        rw [h.displaced] at hd
        obtain ⟨mv, hmv, hid⟩ := List.mem_filterMap.mp hd
        have := hslots.symm.inj hs hid
        exact hdst (List.mem_map.mpr ⟨mv, hmv, this.symm⟩)

/-- A slot below `n` that has a resident keeps one. -/
theorem applyPlan_empty (h : MovesDown n m p) {s : Nat} (hs : s < n)
    (hnone : (applyPlan p m).idOfSlot s = none) : m.idOfSlot s = none := by
  obtain ⟨htarget, -, hother⟩ := applyPlan_idOfSlot h s
  by_cases hdst : s ∈ p.moves.map Prod.snd
  · obtain ⟨⟨src, s⟩, hmv, rfl⟩ := List.mem_map.mp hdst
    obtain ⟨-, -, id, hid⟩ := h.down _ hmv
    rw [htarget src hmv, hid] at hnone
    cases hnone
  · rwa [hother _ hdst] at hnone
    intro hsrc
    obtain ⟨mv, hmv, rfl⟩ := List.mem_map.mp hsrc
    have := (h.down mv hmv).1
    omega

/-- A resident after the moves was one before, and below `n` if it has moved. -/
theorem applyPlan_resident (h : MovesDown n m p) {s id : Nat}
    (hs : (applyPlan p m).idOfSlot s = some id) :
    ∃ src, m.idOfSlot src = some id ∧ (src = s ∨ (src, s) ∈ p.moves) ∧
      (applyPlan p m).gpu s = m.gpu src := by
  obtain ⟨htarget, hsource, hother⟩ := applyPlan_idOfSlot h s
  by_cases hdst : s ∈ p.moves.map Prod.snd
  · obtain ⟨⟨src, s⟩, hmv, rfl⟩ := List.mem_map.mp hdst
    rw [htarget src hmv] at hs
    refine ⟨src, hs, Or.inr hmv, copyRows_of_mem ?_ (List.mem_map.mpr ⟨_, hmv, rfl⟩)⟩
    rw [List.map_map]
    exact h.dst
  · have hsrc : s ∉ p.moves.map Prod.fst := by
      intro hmem
      rw [hsource hmem] at hs
      cases hs
    rw [hother hsrc hdst] at hs
    refine ⟨s, hs, Or.inl rfl, copyRows_of_not_mem fun q hq heq => hdst ?_⟩
    obtain ⟨mv, hmv, rfl⟩ := List.mem_map.mp hq
    exact List.mem_map.mpr ⟨mv, hmv, heq⟩

/-- **Moves lose no copy.** -/
theorem applyPlan_covered {data : Nat → β} (hcov : Covered g data m) (h : MovesDown n m p) :
    Covered g data (applyPlan p m) := by
  have hpaired := applyPlan_paired hcov.slots h
  refine ⟨hpaired, hcov.rows, hcov.free, hcov.published, fun id hid => ?_, fun id slot hslot => ?_,
    hcov.rowBytes⟩
  · obtain ⟨hmoved, -, hkept⟩ := applyPlan_slotForId hcov.slots h id
    by_cases hin : id ∈ (movedIds m p).map Prod.fst
    · obtain ⟨⟨id', dst⟩, hmem, rfl⟩ := List.mem_map.mp hin
      left
      rw [hmoved dst hmem]
      simp
    · by_cases hd : id ∈ p.displaced
      · exact Or.inr (h.copied id hd)
      · rw [hkept hin hd]
        exact hcov.covered id hid
  · obtain ⟨src, hsrc, -, hbytes⟩ := applyPlan_resident h ((hpaired id slot).mp hslot)
    rw [hbytes]
    exact hcov.slotBytes id src ((hcov.slots id src).mpr hsrc)

theorem applyPlan_inArena (harena : InArena g current m) (hn : n ≤ current)
    (h : MovesDown n m p) : InArena g current (applyPlan p m) := by
  refine ⟨fun s id hs => ?_, harena.row⟩
  obtain ⟨src, hsrc, hmv, -⟩ := applyPlan_resident h hs
  obtain ⟨hlt, hid⟩ := harena.slot src id hsrc
  refine ⟨?_, hid⟩
  rcases hmv with rfl | hmv
  · exact hlt
  · have := (h.down _ hmv).2.1
    omega

end Moves

theorem emptySlots_mono {m m' : Mirror β} {k : Nat}
    (h : ∀ s < k, m'.idOfSlot s = none → m.idOfSlot s = none) :
    (emptySlots m' k).length ≤ (emptySlots m k).length := by
  unfold emptySlots
  refine List.Subperm.length_le (List.subperm_of_subset (List.nodup_range.filter _) fun s hs => ?_)
  simp only [List.mem_filter, List.mem_range, Option.isNone_iff_eq_none] at hs ⊢
  exact ⟨hs.1, h s hs.1 hs.2⟩

/-- **A shrink's moves lose no copy, and leave no slot below `n` emptier.** -/
theorem compactBeforeShrink_covered {data : Nat → β} {m : Mirror β} (hcov : Covered g data m)
    (harena : InArena g current m) (enabled : Bool) (rank : Nat → ρ) (hn : n ≤ current) :
    let m' := compactBeforeShrink g enabled rank n current m
    Covered g data m' ∧ InArena g current m' ∧
      (emptySlots m' n).length ≤ (emptySlots m n).length := by
  unfold compactBeforeShrink
  by_cases henabled : enabled
  · rw [if_pos henabled]
    have hdown := planCompaction_movesDown m rank (min g.prefillBase n) n current
    exact ⟨applyPlan_covered hcov hdown, applyPlan_inArena harena hn hdown,
      emptySlots_mono fun s hs => applyPlan_empty hdown hs⟩
  · rw [if_neg henabled]
    exact ⟨hcov, harena, Nat.le_refl _⟩

/-! ## Who is doomed, and which rows are spare -/

section Shrink

variable {m : Mirror β}

theorem mem_doomedSlots {start stop flat slot : Nat} :
    (flat, slot) ∈ doomedSlots m start stop ↔
      (start ≤ slot ∧ slot < stop) ∧ m.idOfSlot slot = some flat := by
  simp only [doomedSlots, List.mem_filterMap, List.mem_range'_1, Option.map_eq_some_iff,
    Prod.mk.injEq]
  constructor
  · rintro ⟨s, hs, id, hid, rfl, rfl⟩
    exact ⟨by omega, hid⟩
  · rintro ⟨hs, hid⟩
    exact ⟨slot, by omega, flat, hid, rfl, rfl⟩

theorem doomedSlots_nodup (hslots : Paired m.slotForId m.idOfSlot) (start stop : Nat) :
    ((doomedSlots m start stop).map Prod.fst).Nodup := by
  have hids : (doomedSlots m start stop).map Prod.fst =
      (List.range' start (stop - start)).filterMap m.idOfSlot := by
    rw [doomedSlots, List.map_filterMap]
    refine List.filterMap_congr fun slot _ => ?_
    cases h : m.idOfSlot slot <;> simp
  rw [hids]
  exact (List.nodup_range' 1).filterMap fun s s' id hs hs' => hslots.symm.inj hs hs'

theorem mem_doomed_ids {start stop flat : Nat} :
    flat ∈ (doomedSlots m start stop).map Prod.fst ↔
      ∃ slot, (start ≤ slot ∧ slot < stop) ∧ m.idOfSlot slot = some flat := by
  simp only [List.mem_map, Prod.exists, exists_and_right, exists_eq_right, mem_doomedSlots]

theorem mem_uncoveredIds {start stop flat : Nat} :
    flat ∈ uncoveredIds m start stop ↔
      (∃ slot, (start ≤ slot ∧ slot < stop) ∧ m.idOfSlot slot = some flat) ∧
        m.poolRowOfId flat = none := by
  rw [uncoveredIds, List.mem_filter, mem_doomed_ids, decide_eq_true_eq]

/-- The survivors of a shrink are the residents below `n`. -/
theorem mem_survivors (hslots : Paired m.slotForId m.idOfSlot) (harena : InArena g current m)
    (hcurrent : current ≤ g.cacheSize) (hn : n ≤ current) {id : Nat} :
    id ∈ survivors g m n current ↔ ∃ s < n, m.idOfSlot s = some id := by
  simp only [survivors, List.mem_filter, List.mem_filterMap, List.mem_range, decide_eq_true_eq,
    mem_doomed_ids]
  constructor
  · rintro ⟨⟨s, -, hs⟩, hnot⟩
    refine ⟨s, ?_, hs⟩
    by_contra hge
    exact hnot ⟨s, ⟨by omega, (harena.slot s id hs).1⟩, hs⟩
  · rintro ⟨s, hlt, hs⟩
    refine ⟨⟨s, by omega, hs⟩, ?_⟩
    rintro ⟨s', hs', hid⟩
    have := hslots.symm.inj hs hid
    omega

/-- A spare row has no owner, or one that survives. -/
theorem mem_spareRows (hrows : Paired m.poolRowOfId m.idOfPoolRow) {start stop row : Nat} :
    row ∈ spareRows g m start stop ↔
      row < g.capacity ∧ ∀ owner, m.idOfPoolRow row = some owner →
        owner ∈ survivors g m start stop := by
  rw [spareRows, List.mem_filter, List.mem_range]
  cases h : m.idOfPoolRow row with
  | none => simp
  | some owner => simp [(hrows owner row).mpr h]

theorem residents_below (m : Mirror β) (k : Nat) :
    ((List.range k).filterMap m.idOfSlot).length + (emptySlots m k).length = k := by
  have hsplit := List.length_eq_length_filter_add (l := List.range k) fun s =>
    (m.idOfSlot s).isSome
  have hfull : ((List.range k).filterMap m.idOfSlot).length =
      ((List.range k).filter fun s => (m.idOfSlot s).isSome).length := by
    rw [List.length_filterMap_eq_countP, List.countP_eq_length_filter]
  have hempty : emptySlots m k = (List.range k).filter fun s => !(m.idOfSlot s).isSome := by
    unfold emptySlots
    refine List.filter_congr fun s _ => ?_
    cases m.idOfSlot s <;> rfl
  rw [List.length_range] at hsplit
  rw [hfull, hempty]
  omega

/-- The doomed residents without a row, the owners of the rows that are not spare, and the residents
below `n` are different experts. -/
theorem experts_apart (hslots : Paired m.slotForId m.idOfSlot)
    (hrows : Paired m.poolRowOfId m.idOfPoolRow) (harena : InArena g current m)
    (hcurrent : current ≤ g.cacheSize) (hn : n ≤ current) :
    (uncoveredIds m n current).length + g.capacity + ((List.range n).filterMap m.idOfSlot).length ≤
      g.total + (spareRows g m n current).length := by
  set taken := (List.range g.capacity).filter fun row => row ∉ spareRows g m n current with htaken
  -- a row that is not spare has an owner, which does not survive in the arena
  have howned : ∀ row ∈ taken, ∃ owner, m.idOfPoolRow row = some owner ∧
      owner ∉ survivors g m n current := by
    intro row hrow
    rw [htaken, List.mem_filter, List.mem_range, decide_eq_true_eq, mem_spareRows hrows] at hrow
    have hnot : ¬ ∀ owner, m.idOfPoolRow row = some owner → owner ∈ survivors g m n current :=
      fun h => hrow.2 ⟨hrow.1, h⟩
    push Not at hnot
    exact hnot
  have hlen : (taken.filterMap m.idOfPoolRow).length = taken.length := by
    rw [List.length_filterMap_eq_countP, List.countP_eq_length]
    intro row hrow
    obtain ⟨owner, howner, -⟩ := howned row hrow
    rw [howner]
    rfl
  have hspare : (spareRows g m n current).length + taken.length = g.capacity := by
    have hnodup : (spareRows g m n current).Nodup := List.nodup_range.filter _
    have := length_outside hnodup fun row hrow => ((mem_spareRows hrows).mp hrow).1
    rw [← htaken] at this
    omega
  have hmem : ∀ owner, owner ∈ taken.filterMap m.idOfPoolRow →
      (∃ row, m.poolRowOfId owner = some row ∧ m.idOfPoolRow row = some owner) ∧
        owner ∉ survivors g m n current := by
    intro owner howner
    obtain ⟨row, hrow, heq⟩ := List.mem_filterMap.mp howner
    obtain ⟨owner', howner', hnot⟩ := howned row hrow
    obtain rfl : owner = owner' := by simpa [heq] using howner'
    exact ⟨⟨row, (hrows owner row).mpr heq, heq⟩, hnot⟩
  -- so the uncovered, the owners and those below `n` are all different
  have hall : (uncoveredIds m n current ++ (taken.filterMap m.idOfPoolRow ++
      (List.range n).filterMap m.idOfSlot)).Nodup := by
    refine List.Nodup.append ((doomedSlots_nodup hslots n current).filter _)
      (List.Nodup.append ?_ ?_ ?_) ?_
    · exact (List.nodup_range.filter _).filterMap fun r r' id hr hr' => hrows.symm.inj hr hr'
    · exact List.nodup_range.filterMap fun s s' id hs hs' => hslots.symm.inj hs hs'
    · intro owner howner hbelow
      obtain ⟨s, hs, hid⟩ := List.mem_filterMap.mp hbelow
      exact (hmem owner howner).2
        ((mem_survivors hslots harena hcurrent hn).mpr ⟨s, List.mem_range.mp hs, hid⟩)
    · intro flat hflat hin
      obtain ⟨⟨slot, hslot, hid⟩, hnone⟩ := mem_uncoveredIds.mp hflat
      rcases List.mem_append.mp hin with howner | hbelow
      · obtain ⟨row, hrow, -⟩ := (hmem flat howner).1
        rw [hnone] at hrow
        cases hrow
      · obtain ⟨s, hs, hid'⟩ := List.mem_filterMap.mp hbelow
        have := hslots.symm.inj hid hid'
        have := List.mem_range.mp hs
        omega
  have hsub : uncoveredIds m n current ++ (taken.filterMap m.idOfPoolRow ++
      (List.range n).filterMap m.idOfSlot) ⊆ List.range g.total := by
    intro id hid
    rw [List.mem_range]
    simp only [List.mem_append] at hid
    rcases hid with hid | hid | hid
    · obtain ⟨⟨slot, -, hid⟩, -⟩ := mem_uncoveredIds.mp hid
      exact (harena.slot slot id hid).2
    · obtain ⟨row, -, hid⟩ := (hmem id hid).1
      exact (harena.row row id hid).2
    · obtain ⟨s, -, hid⟩ := List.mem_filterMap.mp hid
      exact (harena.slot s id hid).2
  have hle := (List.subperm_of_subset hall hsub).length_le
  rw [List.length_append, List.length_append, List.length_range] at hle
  omega

/-- **The floor leaves a row for every doomed resident without one.** -/
theorem uncovered_le_spare (hslots : Paired m.slotForId m.idOfSlot)
    (hrows : Paired m.poolRowOfId m.idOfPoolRow) (harena : InArena g current m)
    (hcurrent : current ≤ g.cacheSize) (hn : n ≤ current)
    (hbounded : g.capacity < g.total) (hreserve : g.prefillBufferSlots ≤ g.reserveRows)
    (hempty : (emptySlots m n).length ≤ g.prefillBufferSlots) (hfloor : g.minGpuSlots ≤ n) :
    (uncoveredIds m n current).length ≤ (spareRows g m n current).length := by
  have hcount := experts_apart hslots hrows harena hcurrent hn
  have hbelow := residents_below m n
  have hmin : g.minGpuSlots = g.total - g.capacity + g.reserveRows := by
    unfold Geometry.minGpuSlots
    rw [if_neg (by omega)]
  omega

/-! ## The rows change owners -/

theorem giveRow_paired (data : Nat → β) (gpu : Bool) (row : Nat)
    (hrows : Paired m.poolRowOfId m.idOfPoolRow) {flat : Nat} (hnone : m.poolRowOfId flat = none) :
    Paired (giveRow data gpu m (flat, row)).poolRowOfId
        (giveRow data gpu m (flat, row)).idOfPoolRow ∧
      ∀ id, id ≠ flat → m.poolRowOfId id = none →
        (giveRow data gpu m (flat, row)).poolRowOfId id = none := by
  unfold giveRow
  cases hold : m.idOfPoolRow row with
  | none =>
    simp only [hold]
    exact ⟨hrows.link hnone hold, fun id hne hid => by rwa [update_of_ne hne]⟩
  | some old =>
    simp only [hold]
    -- the old owner gives the row up first
    have hflat : update m.poolRowOfId old none flat = none := by
      by_cases heq : flat = old
      · rw [heq, update_self]
      · rwa [update_of_ne heq]
    have hlink := (hrows.unlink ((hrows old row).mpr hold)).link hflat
      (update_self row none m.idOfPoolRow)
    rw [update_idem] at hlink
    refine ⟨hlink, fun id hne hid => ?_⟩
    rw [update_of_ne hne]
    by_cases heq : id = old
    · rw [heq, update_self]
    · rwa [update_of_ne heq]

/-- What the loop over the uncovered experts leaves. -/
structure RowsGiven (data : Nat → β) (gpu : Bool) (pairs : List (Nat × Nat)) (m m' : Mirror β) :
    Prop where
  rows : Paired m'.poolRowOfId m'.idOfPoolRow
  owners : m'.idOfPoolRow = copyRows some (pairs.map Prod.swap) m.idOfPoolRow
  pool : m'.pool = if gpu then m.pool else copyRows data (pairs.map Prod.swap) m.pool
  slots : m'.slotForId = m.slotForId ∧ m'.idOfSlot = m.idOfSlot ∧ m'.gpu = m.gpu
  ring : m'.ring = m.ring ∧ m'.freedRows = m.freedRows

theorem giveRows (data : Nat → β) (gpu : Bool) (pairs : List (Nat × Nat)) {m : Mirror β}
    (hrows : Paired m.poolRowOfId m.idOfPoolRow) (hnodup : (pairs.map Prod.fst).Nodup)
    (hnone : ∀ p ∈ pairs, m.poolRowOfId p.1 = none) :
    RowsGiven data gpu pairs m (pairs.foldl (giveRow data gpu) m) := by
  induction pairs generalizing m with
  | nil => exact ⟨hrows, rfl, by simp, ⟨rfl, rfl, rfl⟩, rfl, rfl⟩
  | cons p pairs ih =>
    obtain ⟨flat, row⟩ := p
    obtain ⟨hnot, hnodup⟩ := List.nodup_cons.mp hnodup
    obtain ⟨hpaired, hstill⟩ := giveRow_paired data gpu row hrows (hnone _ List.mem_cons_self)
    have hrest := ih hpaired hnodup fun q hq =>
      hstill q.1 (fun heq => hnot (heq ▸ List.mem_map_of_mem hq)) (hnone q (List.mem_cons_of_mem _ hq))
    rw [List.foldl_cons]
    refine ⟨hrest.rows, hrest.owners, ?_, hrest.slots, hrest.ring⟩
    rw [hrest.pool]
    cases gpu <;> rfl

/-! ## The refill -/

/-- What a refill of the slots from `n` on leaves. -/
structure Refilled (g : Geometry) (data : Nat → β) (n : Nat) (m m' : Mirror β) : Prop where
  covered : Covered g data m'
  slots : m'.idOfSlot = m.idOfSlot
  /-- Every expert that is not on a slot below `n` owns a row. -/
  below : ∀ id < g.total, (∀ s < n, m'.idOfSlot s ≠ some id) → m'.poolRowOfId id ≠ none
  /-- No row has two owners. -/
  single : ∀ row id id', m'.poolRowOfId id = some row → m'.poolRowOfId id' = some row → id = id'
  /-- No row of an expert that does not survive was overwritten. -/
  kept : ∀ row id, m.idOfPoolRow row = some id → (∀ s < n, m.idOfSlot s ≠ some id) →
    m'.idOfPoolRow row = some id ∧ m'.pool row = m.landed g row

/-- An expert that is neither below `n` nor doomed has a row. -/
theorem row_of_absent {data : Nat → β} (hcov : Covered g data m) (harena : InArena g current m)
    {id : Nat} (hid : id < g.total) (hbelow : ∀ s < n, m.idOfSlot s ≠ some id)
    (huncovered : id ∉ uncoveredIds m n current) : m.poolRowOfId id ≠ none := by
  intro hnone
  rcases hcov.covered id hid with hslot | hrow
  · obtain ⟨s, hs⟩ := Option.ne_none_iff_exists'.mp hslot
    rw [hcov.slots] at hs
    refine huncovered (mem_uncoveredIds.mpr ⟨⟨s, ⟨?_, (harena.slot s id hs).1⟩, hs⟩, hnone⟩)
    by_contra hlt
    exact hbelow s (by omega) hs
  · exact hrow hnone

/-- With nobody to refill, the maps are as they should be. -/
theorem refilled_of_nobody {data : Nat → β} (hcov : Covered g data m)
    (harena : InArena g current m) (hnobody : uncoveredIds m n current = []) :
    Refilled g data n m (m.drainWritebacks g) where
  covered := hcov.drain
  slots := rfl
  below id hid hbelow := row_of_absent hcov harena hid hbelow (by simp [hnobody])
  single row id id' h h' := hcov.rows.inj h h'
  kept row id h _ := ⟨h, rfl⟩

/-- A launch that copies each expert's slot to its row writes the expert's bytes. -/
theorem copyRows_zip {src data : Nat → β} {f : Nat → Option Nat} {ids : List Nat}
    (h : ∀ id ∈ ids, ∃ s, f id = some s ∧ src s = data id) (rows : List Nat) (dst : Nat → β) :
    copyRows src (rows.zip (ids.filterMap f)) dst =
      copyRows data ((ids.zip rows).map Prod.swap) dst := by
  induction ids generalizing rows dst with
  | nil => simp
  | cons id ids ih =>
    obtain ⟨s, hs, hbytes⟩ := h id List.mem_cons_self
    cases rows with
    | nil => simp
    | cons row rows =>
      rw [List.filterMap_cons_some hs, List.zip_cons_cons, List.zip_cons_cons, List.map_cons,
        copyRows, copyRows, List.foldl_cons, List.foldl_cons]
      rw [show src s = data id from hbytes]
      exact ih (fun id' hid' => h id' (List.mem_cons_of_mem _ hid')) rows _

/-- Where the rows went, the maps and the bytes are as they should be. -/
theorem refilled_of_given {data : Nat → β} (hcov : Covered g data m) (harena : InArena g current m)
    (hcurrent : current ≤ g.cacheSize) (hn : n ≤ current) {rows : List Nat} (hnodup : rows.Nodup)
    (hspare : ∀ row ∈ rows, row ∈ spareRows g m n current)
    (hlen : rows.length = (uncoveredIds m n current).length) {m' : Mirror β}
    (hpaired : Paired m'.poolRowOfId m'.idOfPoolRow)
    (howners : m'.idOfPoolRow =
      copyRows some (((uncoveredIds m n current).zip rows).map Prod.swap) m.idOfPoolRow)
    (hpool : m'.pool =
      copyRows data (((uncoveredIds m n current).zip rows).map Prod.swap) (m.landed g))
    (hslots : m'.slotForId = m.slotForId ∧ m'.idOfSlot = m.idOfSlot ∧ m'.gpu = m.gpu)
    (hring : m'.ring.done = m'.ring.head ∧ m'.freedRows = []) :
    Refilled g data n m (mirrorPublishFreeRows g m') := by
  set pairs := (uncoveredIds m n current).zip rows with hpairs
  have hkeys : (pairs.map Prod.swap).map Prod.fst = rows := by
    rw [List.map_map]
    exact List.map_snd_zip (Nat.le_of_eq hlen)
  have hkeysNodup : ((pairs.map Prod.swap).map Prod.fst).Nodup := hkeys ▸ hnodup
  have hgiven : ∀ flat row, (flat, row) ∈ pairs →
      m'.idOfPoolRow row = some flat ∧ m'.pool row = data flat := by
    intro flat row hmem
    have hswap : (row, flat) ∈ pairs.map Prod.swap := List.mem_map.mpr ⟨_, hmem, rfl⟩
    rw [howners, hpool]
    exact ⟨copyRows_of_mem hkeysNodup hswap, copyRows_of_mem hkeysNodup hswap⟩
  have hother : ∀ row, row ∉ rows →
      m'.idOfPoolRow row = m.idOfPoolRow row ∧ m'.pool row = m.landed g row := by
    intro row hrow
    have hnot : ∀ p ∈ pairs.map Prod.swap, p.1 ≠ row := by
      rintro p hp rfl
      exact hrow (hkeys ▸ List.mem_map_of_mem hp)
    rw [howners, hpool]
    exact ⟨copyRows_of_not_mem hnot, copyRows_of_not_mem hnot⟩
  -- an owner that does not survive keeps its row
  have hkept : ∀ row id, m.idOfPoolRow row = some id → (∀ s < n, m.idOfSlot s ≠ some id) →
      row ∉ rows := by
    intro row id hid hbelow hrow
    obtain ⟨-, howner⟩ := (mem_spareRows hcov.rows).mp (hspare row hrow)
    obtain ⟨s, hs, hres⟩ := (mem_survivors hcov.slots harena hcurrent hn).mp (howner id hid)
    exact hbelow s hs hres
  have hfilled : ∀ flat ∈ uncoveredIds m n current, m'.poolRowOfId flat ≠ none := by
    intro flat hflat
    have hfst : pairs.map Prod.fst = uncoveredIds m n current :=
      List.map_fst_zip (Nat.le_of_eq hlen.symm)
    rw [← hfst] at hflat
    obtain ⟨⟨flat, row⟩, hmem, rfl⟩ := List.mem_map.mp hflat
    rw [(hpaired flat row).mpr (hgiven flat row hmem).1]
    simp
  have hbelow : ∀ id < g.total, (∀ s < n, m.idOfSlot s ≠ some id) → m'.poolRowOfId id ≠ none := by
    intro id hid habsent
    by_cases huncovered : id ∈ uncoveredIds m n current
    · exact hfilled id huncovered
    · obtain ⟨row, hrow⟩ := Option.ne_none_iff_exists'.mp
        (row_of_absent hcov harena hid habsent huncovered)
      rw [hcov.rows] at hrow
      rw [(hpaired id row).mpr ((hother row (hkept row id hrow habsent)).1.trans hrow)]
      simp
  refine ⟨⟨?_, hpaired, ?_, hring.2, fun id hid => ?_, ?_, fun id row hrow => ?_⟩, hslots.2.1,
    fun id hid habsent => hbelow id hid fun s hs => hslots.2.1 ▸ habsent s hs,
    fun row id id' h h' => hpaired.inj h h', fun row id hid habsent => ?_⟩
  · exact hslots.1.symm ▸ hslots.2.1.symm ▸ hcov.slots
  · exact (unownedRows_unowned m').perm (List.reverse_perm _)
  · change m'.slotForId id ≠ none ∨ m'.poolRowOfId id ≠ none
    rw [hslots.1]
    by_cases hslot : m.slotForId id = none
    · refine Or.inr (hbelow id hid fun s _ hs => ?_)
      rw [← hcov.slots, hslot] at hs
      cases hs
    · exact Or.inl hslot
  · change ∀ id slot, m'.slotForId id = some slot → m'.gpu slot = data id
    rw [hslots.1, hslots.2.2]
    exact hcov.slotBytes
  · have hlanded : (mirrorPublishFreeRows g m').landed g = m'.pool :=
      Mirror.landed_of_drained g hring.1
    have howner : m'.idOfPoolRow row = some id := (hpaired id row).mp hrow
    rw [hlanded]
    by_cases hin : row ∈ rows
    · rw [← hkeys] at hin
      obtain ⟨⟨row', flat⟩, hswap, rfl⟩ := List.mem_map.mp hin
      obtain ⟨⟨flat', row''⟩, hmem, heq⟩ := List.mem_map.mp hswap
      obtain ⟨rfl, rfl⟩ : row'' = row' ∧ flat' = flat := by simpa [Prod.swap] using heq
      obtain ⟨hid, hbytes⟩ := hgiven flat' row'' hmem
      obtain rfl : flat' = id := by simpa [howner] using hid.symm
      exact hbytes
    · obtain ⟨hsame, hbytes⟩ := hother row hin
      rw [hbytes]
      exact hcov.rowBytes id row ((hcov.rows id row).mpr (hsame.symm.trans howner))
  · obtain ⟨howner, hbytes⟩ := hother row (hkept row id hid habsent)
    exact ⟨howner.trans hid, hbytes⟩

theorem refill_ok {data : Nat → β} (hcov : Covered g data m) (harena : InArena g current m)
    (hcurrent : current ≤ g.cacheSize) (hn : n ≤ current) (gpu : Bool)
    (hle : (uncoveredIds m n current).length ≤ (spareRows g m n current).length) :
    ∃ count m', mirrorRefillUncovered g data n current gpu m = .ok (count, m') ∧
      Refilled g data n m m' := by
  have huncovered : uncoveredIds (m.drainWritebacks g) n current = uncoveredIds m n current := rfl
  have hspare : spareRows g (m.drainWritebacks g) n current = spareRows g m n current := rfl
  have hdoomed : doomedSlots (m.drainWritebacks g) n current = doomedSlots m n current := rfl
  unfold mirrorRefillUncovered
  simp only [huncovered, hspare, hdoomed]
  by_cases hnobody : uncoveredIds m n current = []
  · rw [if_pos hnobody]
    exact ⟨_, _, rfl, refilled_of_nobody hcov harena hnobody⟩
  · rw [if_neg hnobody, if_neg (Nat.not_lt.mpr hle)]
    set rows := (spareRows g m n current).take (uncoveredIds m n current).length with hrows
    have hlen : rows.length = (uncoveredIds m n current).length := by
      rw [hrows, List.length_take]
      omega
    have hnodup : rows.Nodup := (List.nodup_range.filter _).sublist (List.take_sublist _ _)
    have hsub : ∀ row ∈ rows, row ∈ spareRows g m n current := fun row => List.mem_of_mem_take
    have hfst : ((uncoveredIds m n current).zip rows).map Prod.fst = uncoveredIds m n current :=
      List.map_fst_zip (Nat.le_of_eq hlen.symm)
    have huncoveredNodup : (uncoveredIds m n current).Nodup :=
      (doomedSlots_nodup hcov.slots n current).filter _
    have hnone : ∀ p ∈ (uncoveredIds m n current).zip rows, m.poolRowOfId p.1 = none :=
      fun p hp => (mem_uncoveredIds.mp (List.of_mem_zip hp).1).2
    have hbytes : ∀ id ∈ uncoveredIds m n current, ∃ s,
        copyRows some (doomedSlots m n current) (fun _ => none) id = some s ∧ m.gpu s = data id := by
      intro id hid
      obtain ⟨⟨slot, hslot, hres⟩, -⟩ := mem_uncoveredIds.mp hid
      refine ⟨slot, ?_, hcov.slotBytes id slot ((hcov.slots id slot).mpr hres)⟩
      exact copyRows_of_mem (doomedSlots_nodup hcov.slots n current)
        (mem_doomedSlots.mpr ⟨hslot, hres⟩)
    -- the launch, if there is one, changes the bytes of the rows only
    generalize hm₁ : (if gpu = true then _ else m.drainWritebacks g) = m₁
    have hrowMaps : m₁.poolRowOfId = m.poolRowOfId ∧ m₁.idOfPoolRow = m.idOfPoolRow := by
      rw [← hm₁]
      cases gpu <;> exact ⟨rfl, rfl⟩
    have hslots : m₁.slotForId = m.slotForId ∧ m₁.idOfSlot = m.idOfSlot ∧ m₁.gpu = m.gpu := by
      rw [← hm₁]
      cases gpu <;> exact ⟨rfl, rfl, rfl⟩
    have hring : m₁.ring.done = m₁.ring.head ∧ m₁.freedRows = [] := by
      rw [← hm₁]
      cases gpu <;> exact ⟨rfl, hcov.published⟩
    have hpool : (if gpu then m₁.pool else
        copyRows data (((uncoveredIds m n current).zip rows).map Prod.swap) m₁.pool) =
        copyRows data (((uncoveredIds m n current).zip rows).map Prod.swap) (m.landed g) := by
      rw [← hm₁]
      cases gpu with
      | false => rfl
      | true => exact copyRows_zip hbytes rows (m.landed g)
    have hgiven := giveRows data gpu ((uncoveredIds m n current).zip rows) (m := m₁)
      (by rw [hrowMaps.1, hrowMaps.2]; exact hcov.rows) (hfst.symm ▸ huncoveredNodup)
      (by rw [hrowMaps.1]; exact hnone)
    have hslots' := hgiven.slots
    rw [hslots.1, hslots.2.1, hslots.2.2] at hslots'
    refine ⟨_, _, rfl, refilled_of_given hcov harena hcurrent hn hnodup hsub hlen hgiven.rows
      (hrowMaps.2 ▸ hgiven.owners) (hgiven.pool.trans hpool) hslots' ?_⟩
    rw [hgiven.ring.1, hgiven.ring.2]
    exact hring

end Shrink

/-- **The refill before a shrink goes through**, of a bounded mirror whose reserve covers the double
buffer, whose empty slots are no more than the buffer's, at every size from the floor on, after the
plan of any ranking or after none. -/
theorem shrink_refills (g : Geometry) (data : Nat → β) (m : Mirror β) (n current : Nat)
    (hbounded : g.capacity < g.total) (hreserve : g.prefillBufferSlots ≤ g.reserveRows)
    (hcurrent : current ≤ g.cacheSize) (harena : InArena g current m) (hcov : Covered g data m)
    (hempty : (emptySlots m current).length ≤ g.prefillBufferSlots)
    (hfloor : g.minGpuSlots ≤ n) (hn : n < current) (enabled : Bool) (rank : Nat → ρ)
    (gpu : Bool) :
    let m₁ := compactBeforeShrink g enabled rank n current m
    ∃ count m', mirrorRefillUncovered g data n current gpu m₁ = .ok (count, m') ∧
      Refilled g data n m₁ m' := by
  intro m₁
  obtain ⟨hcov₁, harena₁, hempty₁⟩ :=
    compactBeforeShrink_covered hcov harena enabled rank (Nat.le_of_lt hn)
  have hbelow : (emptySlots m n).length ≤ (emptySlots m current).length := by
    unfold emptySlots
    exact ((List.range_sublist.mpr (Nat.le_of_lt hn)).filter _).length_le
  refine refill_ok hcov₁ harena₁ hcurrent (Nat.le_of_lt hn) gpu ?_
  exact uncovered_le_spare hcov₁.slots hcov₁.rows harena₁ hcurrent (Nat.le_of_lt hn) hbounded
    hreserve (hempty₁.trans (hbelow.trans hempty)) hfloor

/-- Six experts, four of them on slots, the last two in the pool. -/
def sixExperts : Geometry where
  numLayers := 6
  numExperts := 1
  cacheSize := 4
  capacity := 5
  reserveRows := 2
  wbStageRows := 0

def fourSeated : Mirror Nat where
  idOfSlot s := if s < 4 then some s else none
  slotForId id := if id < 4 then some id else none
  poolRowOfId id := if 4 ≤ id ∧ id < 6 then some (id - 4) else none
  idOfPoolRow row := if row < 2 then some (row + 4) else none
  freeRows := [2, 3, 4]
  gpu s := s
  pool row := row + 4
  stage _ := 0

theorem fourSeated_covered : Covered sixExperts (fun id => id) fourSeated where
  slots id s := by
    simp only [fourSeated, Option.ite_none_right_eq_some, Option.some.injEq]
    omega
  rows id row := by
    simp only [fourSeated, Option.ite_none_right_eq_some, Option.some.injEq]
    omega
  free := by
    refine ⟨by decide, fun k => ?_⟩
    simp only [fourSeated, sixExperts, List.mem_cons, List.not_mem_nil, or_false,
      ite_eq_right_iff, reduceCtorEq, imp_false]
    omega
  published := rfl
  covered id hid := by
    simp only [sixExperts, Geometry.total] at hid
    simp only [fourSeated, ne_eq, ite_eq_right_iff, reduceCtorEq, imp_false]
    omega
  slotBytes id slot h := by
    simp only [fourSeated, Option.ite_none_right_eq_some, Option.some.injEq] at h ⊢
    omega
  rowBytes id row h := by
    rw [Mirror.landed_of_drained _ rfl]
    simp only [fourSeated, Option.ite_none_right_eq_some, Option.some.injEq] at h ⊢
    omega

theorem fourSeated_inArena : InArena sixExperts 4 fourSeated := by
  constructor
  · intro s id h
    simp only [fourSeated, sixExperts, Geometry.total, Option.ite_none_right_eq_some,
      Option.some.injEq] at h ⊢
    omega
  · intro row id h
    simp only [fourSeated, sixExperts, Geometry.total, Option.ite_none_right_eq_some,
      Option.some.injEq] at h ⊢
    omega

/-- Handing over the last slot leaves every expert without one a row. -/
theorem fourSeated_refills :
    ∃ count m', mirrorRefillUncovered sixExperts (fun id => id) 3 4 true
        (compactBeforeShrink sixExperts true (fun s => s) 3 4 fourSeated) = .ok (count, m') ∧
      ∀ id < 6, (∀ s < 3, m'.idOfSlot s ≠ some id) → m'.poolRowOfId id ≠ none := by
  obtain ⟨count, m', hok, hrefilled⟩ := shrink_refills sixExperts (fun id => id) fourSeated 3 4
    (by decide) (by decide) (by decide) fourSeated_inArena fourSeated_covered (by decide) (by decide) (by decide)
    true (fun s => s) true
  exact ⟨count, m', hok, hrefilled.below⟩

end FreeToken.Mirror
