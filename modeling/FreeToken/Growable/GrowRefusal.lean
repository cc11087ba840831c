import FreeToken.Growable.Ledger
import FreeToken.Growable.PoolMapping
import FreeToken.Lib.Argmin

/-!
# When a grow is refused

`_grow_runtime_kv_arena` where the free memory is what the ledger says: it changes by the bytes
that `set_usable_slots` and `commit_pages` report. A grow should fail only where no boundary above
the floor of the arena gives back enough for the commit and the headroom. Main results:

* `ArenaSpec.setUsableSlots_iff`: the slots that a resize accepts, and what it gives back.
* `GrowCase.resized`, `GrowCase.rejected`: a grow with one resize behind its first target.
* `funded_iff`: where the grow is refused only for want of memory.
-/

namespace FreeToken.Growable

/-! ## The arena as it is built -/

/-- The class arenas, each bank with its class and the bytes of a row. -/
structure ArenaSpec where
  layouts : List (Nat × Nat)
  banks : List (ArenaClass × Nat)
  numExperts : Nat
  prefillOverlap : Bool
  minGpuSlots : Nat
  steps : ∀ layout ∈ layouts, 0 < layout.2
  classes : ∀ b ∈ banks, b.1 ∈ classRanges 0 layouts

/-- A bank, of which nothing is mapped yet. -/
def ArenaSpec.bank (b : ArenaClass × Nat) : Bank where
  vmm :=
    { granularity := granule
      reservedBytes := roundUp (b.1.capacity * b.2) granule
      mappings := ∅ }
  cls := b.1
  rowBytes := b.2

/-- The arena with some slots usable. -/
def ArenaSpec.arena (s : ArenaSpec) (usable : Nat) : Arena :=
  Arena.sized
    { layouts := s.layouts
      banks := s.banks.map ArenaSpec.bank
      numExperts := s.numExperts
      prefillOverlap := s.prefillOverlap
      minGpuSlots := s.minGpuSlots
      cacheSize := usable } usable

namespace ArenaSpec

variable {s : ArenaSpec} {n m : Nat}

/-- The cutoffs at which the arena may stand. -/
def boundaries (s : ArenaSpec) : List Nat := (s.arena 0).boundaries

@[simp] theorem arena_boundaries : (s.arena n).boundaries = s.boundaries := rfl

@[simp] theorem arena_cacheSize : (s.arena n).cacheSize = n := rfl

@[simp] theorem arena_jointFloor : (s.arena n).jointFloor = (s.arena 0).jointFloor := rfl

@[simp] theorem arena_floorSlots : (s.arena n).floorSlots = (s.arena 0).floorSlots := rfl

@[simp] theorem arena_sized : (s.arena n).sized m = s.arena m := Arena.sized_sized

theorem mem_banks {b : Bank} (hb : b ∈ (s.arena n).banks) :
    ∃ spec ∈ s.banks, b = (bank spec).sized n := by
  obtain ⟨b', hb', rfl⟩ := List.mem_map.mp hb
  obtain ⟨spec, hspec, rfl⟩ := List.mem_map.mp hb'
  exact ⟨spec, hspec, rfl⟩

theorem sound (hn : n ∈ s.boundaries) : (s.arena n).Sound where
  steps := s.steps
  banks b hb := by
    obtain ⟨spec, hspec, rfl⟩ := mem_banks hb
    exact s.classes spec hspec
  granule b hb := by
    obtain ⟨spec, -, rfl⟩ := mem_banks hb
    exact Nat.two_pow_pos 21
  boundary := hn
  mapped := arena_sized

theorem granular : (s.arena n).Granular := by
  intro b hb
  obtain ⟨spec, -, rfl⟩ := mem_banks hb
  rfl

/-- The bytes at a cutoff, and the floors, do not depend on where the arena stands. -/
theorem transitionBytes_eq : (s.arena n).transitionBytes m = (s.arena 0).transitionBytes m := by
  rw [← @arena_sized s 0 n, Arena.sized_transitionBytes]

theorem classRanges_end {layouts : List (Nat × Nat)} : ∀ {start : Nat} {c : ArenaClass},
    c ∈ classRanges start layouts →
      c.begin + c.capacity ≤ start + (layouts.map Prod.fst).sum := by
  induction layouts with
  | nil =>
    intro start c hc
    cases hc
  | cons layout layouts ih =>
    intro start c hc
    rw [List.map_cons, List.sum_cons]
    rcases List.mem_cons.mp hc with rfl | hc
    · simp only
      omega
    · have := ih hc
      omega

theorem boundary_le_total (hn : n ∈ s.boundaries) : n ≤ (s.layouts.map Prod.fst).sum := by
  unfold boundaries Arena.boundaries at hn
  rcases List.mem_cons.mp hn with rfl | hn
  · exact Nat.zero_le _
  · obtain ⟨c, hc, hnc⟩ := List.mem_flatMap.mp hn
    obtain ⟨slots, hslots, rfl⟩ := List.mem_map.mp hnc
    have hslots : slots ≤ c.capacity := (mem_chunksFrom hslots).2
    have hend := classRanges_end hc
    simp only [Nat.zero_add] at hend
    exact (Nat.add_le_add_left hslots _).trans hend

/-! ## Chunks can be unmapped -/

theorem le_capacity {c : ArenaClass} {x : Nat} (h : x ∈ c.boundaries) : x ≤ c.capacity := by
  rcases List.mem_cons.mp h with rfl | h
  · exact Nat.zero_le _
  · exact (mem_chunksFrom h).2

/-- A chunk is whole granules, up to where a boundary of the class ends. -/
theorem valid_of_chunk {b : Bank} {r : Range} (hr : r ∈ b.chunkRanges) (hpos : 0 < r.2)
    (hreserved : roundUp (b.cls.capacity * b.rowBytes) b.vmm.granularity ≤ b.vmm.reservedBytes) :
    b.vmm.Valid r := by
  unfold Bank.chunkRanges at hr
  simp only at hr
  obtain ⟨i, hi, rfl⟩ := List.getElem_of_mem hr
  rw [List.getElem_zipWith] at hpos ⊢
  rw [List.length_zipWith, List.length_tail, List.length_map] at hi
  simp only [List.getElem_tail, List.getElem_map] at hpos ⊢
  have hdvd : ∀ x, b.vmm.granularity ∣ roundUp x b.vmm.granularity :=
    fun x => Nat.dvd_mul_left _ _
  have hi' : i + 1 < b.cls.boundaries.length := by omega
  have hcapacity : b.cls.boundaries[i + 1] ≤ b.cls.capacity := le_capacity (List.getElem_mem _)
  have hmono : roundUp (b.cls.boundaries[i + 1] * b.rowBytes) b.vmm.granularity ≤
      roundUp (b.cls.capacity * b.rowBytes) b.vmm.granularity :=
    Bank.roundUp_mono (Nat.mul_le_mul_right _ hcapacity)
  refine ⟨hpos, Nat.mod_eq_zero_of_dvd (hdvd _),
    Nat.mod_eq_zero_of_dvd (Nat.dvd_sub (hdvd _) (hdvd _)), ?_⟩
  simp only
  omega

theorem valid_chunk {spec : ArenaClass × Nat} {r : Range}
    (hr : r ∈ (bank spec).chunkRanges) (hpos : 0 < r.2) : (bank spec).vmm.Valid r :=
  valid_of_chunk hr hpos (Nat.le_refl _)

/-- The chunks between two boundaries are ranges that may be asked for, and among those up to the
higher one. -/
theorem slice_request (hm : m ∈ s.boundaries) (hn : n ∈ s.boundaries) (hmn : m ≤ n)
    {spec : ArenaClass × Nat} (hspec : spec ∈ s.banks) :
    (bank spec).vmm.Request (Bank.nonempty ((bank spec).slice m n)) ∧
      ∀ r ∈ Bank.nonempty ((bank spec).slice m n), 0 < r.2 ∧
        r ∈ (bank spec).chunkRanges.take ((bank spec).cls.index n) := by
  have hindex := (sound hn).index_le hm hmn (List.mem_map_of_mem (List.mem_map_of_mem hspec))
  rw [Bank.sized_cls] at hindex
  have hsub : ∀ r ∈ Bank.nonempty ((bank spec).slice m n), 0 < r.2 ∧
      r ∈ (bank spec).chunkRanges.take ((bank spec).cls.index n) := by
    intro r hr
    obtain ⟨hr, hpos⟩ := List.mem_filter.mp hr
    rw [Bank.take_eq_append_slice hindex]
    exact ⟨of_decide_eq_true hpos, List.mem_append_right _ hr⟩
  have hvalid : ∀ r ∈ Bank.nonempty ((bank spec).slice m n), (bank spec).vmm.Valid r :=
    fun r hr => valid_chunk (List.mem_of_mem_take (hsub r hr).2) (hsub r hr).1
  refine ⟨⟨hvalid, ?_⟩, hsub⟩
  have hpair := @Bank.chunkRanges_pairwise (bank spec)
  unfold Bank.nonempty Bank.slice
  exact ((hpair.sublist (List.take_sublist _ _)).sublist (List.drop_sublist _ _)).filter _
    |>.imp fun h => Or.inl h

/-- What is unmapped on the way down is mapped. -/
theorem track_mapped (hm : m ∈ s.boundaries) (hn : n ∈ s.boundaries) (hmn : m ≤ n) {t : Track}
    (ht : t ∈ (s.arena n).tracks m n) : t.1.Request t.2 ∧ ∀ r ∈ t.2, r ∈ t.1.mappings := by
  obtain ⟨b, hb, rfl⟩ := List.mem_map.mp ht
  obtain ⟨spec, hspec, rfl⟩ := mem_banks hb
  obtain ⟨hrequest, hsub⟩ := slice_request hm hn hmn hspec
  refine ⟨hrequest, fun r hr => ?_⟩
  obtain ⟨hpos, hmem⟩ := hsub r hr
  show r ∈ (Bank.nonempty ((bank spec).chunkRanges.take ((bank spec).cls.index n))).toFinset
  rw [List.mem_toFinset]
  exact List.mem_filter.mpr ⟨hmem, decide_eq_true hpos⟩

/-- What is unmapped on the way down is what was mapped on the way up. -/
theorem track_uncommit (hm : m ∈ s.boundaries) (hn : n ∈ s.boundaries) (hmn : m ≤ n) {t : Track}
    (ht : t ∈ (s.arena n).tracks m n) : ∃ v, Fault.none.uncommit t.1 t.2 = some (.none, v) := by
  have hsome := Vmm.uncommitRanges_eq_some.mpr ⟨track_mapped hm hn hmn ht, rfl⟩
  unfold Fault.uncommit
  split
  · exact ⟨_, rfl⟩
  · rw [hsome]
    exact ⟨_, rfl⟩

/-- A shrink to a boundary goes through. -/
theorem shrink_eq (s : ArenaSpec) {m n : Nat} (hm : m ∈ s.boundaries) (hn : n ∈ s.boundaries)
    (hlt : m < n) :
    (s.arena n).shrink .none m = .done .none (s.arena m, (s.arena n).sliceBytes m n) := by
  have hspend := (@uncommitEach_spend ((s.arena n).tracks m n) .none fun t ht =>
    track_uncommit hm hn hlt.le ht).2 .none rfl
  obtain ⟨vmms, hvmms⟩ := hspend
  have hshrink : (s.arena n).shrink .none m = .done .none
      ({ s.arena n with cacheSize := m, banks := (s.arena n).setVmms vmms },
        (s.arena n).sliceBytes m n) := by
    unfold Arena.shrink
    rw [arena_cacheSize, hvmms]
  obtain ⟨harena, -⟩ := Arena.shrink_done (sound hn) hm hlt hshrink
  rwa [harena, arena_sized] at hshrink

/-! ## A resize down -/

/-- The slots that `set_usable_slots` accepts, from where it stands. -/
def Accepts (s : ArenaSpec) (current n : Nat) : Prop :=
  n = current ∨ n ∈ s.boundaries ∧ (s.arena 0).jointFloor ≤ n

/-- **A shrink goes through just when its target is accepted**, and gives back the difference of
the prices. -/
theorem setUsableSlots_iff (hcurrent : n ∈ s.boundaries) (hlt : m < n) :
    ((s.Accepts n m) → ∃ released, (s.arena n).setUsableSlots .none m =
        .done .none (s.arena m, released) ∧
      released + (s.arena 0).transitionBytes m = (s.arena 0).transitionBytes n) ∧
    (¬s.Accepts n m → ∃ r, (s.arena n).setUsableSlots .none m = .raised r) := by
  have hmax : n ≤ (s.arena n).total := boundary_le_total hcurrent
  refine ⟨fun haccept => ?_, fun hrefuse => ?_⟩
  · obtain ⟨hm, hfloor⟩ : m ∈ s.boundaries ∧ (s.arena 0).jointFloor ≤ m := by
      rcases haccept with heq | h
      · omega
      · exact h
    have hshrink := s.shrink_eq hm hcurrent hlt
    refine ⟨(s.arena n).sliceBytes m n, ?_, ?_⟩
    · unfold Arena.setUsableSlots
      show (if m = (s.arena n).cacheSize then _ else _) = _
      rw [arena_cacheSize, arena_boundaries, arena_jointFloor, if_neg (by omega),
        if_neg (by omega), if_neg (not_not.mpr hm), if_neg (by omega), if_pos hlt]
      exact hshrink
    · have hbytes := Arena.sliceBytes_add (sound hcurrent) granular hm hcurrent hlt.le
      rwa [@transitionBytes_eq s n m, @transitionBytes_eq s n n] at hbytes
  · unfold Arena.setUsableSlots
    show ∃ r, (if m = (s.arena n).cacheSize then _ else _) = Attempt.raised r
    rw [arena_cacheSize, arena_boundaries, arena_jointFloor, if_neg (by omega),
      if_neg (by omega)]
    by_cases hm : m ∈ s.boundaries
    · have hfloor : m < (s.arena 0).jointFloor := by
        by_contra hge
        exact hrefuse (Or.inr ⟨hm, by omega⟩)
      rw [if_neg (not_not.mpr hm), if_pos hfloor]
      exact ⟨_, rfl⟩
    · rw [if_pos hm]
      exact ⟨_, rfl⟩

end ArenaSpec

/-! ## The grow -/

/-- The slots that the loop behind the first shrink passes to `set_usable_slots`. -/
def Engine.passedByTopUp (floor : Nat) (liveBefore requiredFree : Int) :
    Nat → World → Nat → Nat → Int → List Nat
  | 0, _, _, _, _ => []
  | rounds + 1, w, targetMoe, released, live =>
    if live < requiredFree ∧ floor < targetMoe then
      let next := w.arena.stepDown targetMoe floor
      match w.setUsableSlots .none next with
      | .raised _ => [next]
      | .done _ w more =>
        next :: passedByTopUp floor liveBefore requiredFree rounds { w with moeCacheSize := next }
          next (released + more) (max live (liveBefore + (released + more : Nat)))
    else []

namespace Engine

variable (e : Engine)

/-- `required_free`. -/
def requiredFree (w : World) (targetPages : Nat) : Int :=
  (w.kvBytes targetPages : Int) - w.kvBytes w.pool.committedPages + e.headroomBytes

/-- What the first shrink goes to, above the floor or at it. -/
def firstTarget (w : World) (liveFree desiredFree : Int) : Nat :=
  max (w.arena.usableForTargetFreeBytes (desiredFree - liveFree +
    ((w.arena.transitionBytes (w.arena.boundaries.getLastD 0) : Int) -
      w.arena.transitionBytes w.arena.cacheSize))) w.arena.floorSlots

/-- The first of the slots, and those behind it. -/
def passedFrom (w : World) (liveBefore requiredFree : Int) (target : Nat) : List Nat :=
  match w.setUsableSlots .none target with
  | .raised _ => [target]
  | .done _ w' released =>
    target :: passedByTopUp w.arena.floorSlots liveBefore requiredFree target
      { w' with moeCacheSize := target } target released
      (max (e.freeMemory .second { w' with moeCacheSize := target } : Int) (liveBefore + released))

/-- The slots that the transaction of `_grow_runtime_kv_arena` passes to `set_usable_slots`. -/
def passed (w : World) (targetPages : Nat) : List Nat :=
  let required := e.requiredFree w targetPages
  let liveBefore : Int := e.freeMemory .first w
  if liveBefore < required + PREFILL_HEADROOM_MARGIN_BYTES then
    let target := firstTarget w liveBefore (required + PREFILL_HEADROOM_MARGIN_BYTES)
    if w.arena.cacheSize ≤ target then [] else e.passedFrom w liveBefore required target
  else
    passedByTopUp w.arena.floorSlots liveBefore required w.arena.cacheSize w w.arena.cacheSize 0
      (max (e.freeMemory .second w : Int) liveBefore)

end Engine

/-- An engine between two grows: the pool after some calls, the arena at a cutoff. -/
structure GrowCase where
  engine : Engine
  pool : PoolSpec
  calls : List Pool.PoolCall
  arena : ArenaSpec
  current : Nat
  targetPages : Nat

namespace GrowCase

variable (c : GrowCase)

def world : World where
  pool := c.pool.pool.calls c.calls
  arena := c.arena.arena c.current
  moeCacheSize := c.current

/-- `arena_floor_slots`. -/
def floor : Nat := (c.arena.arena 0).floorSlots

def bytes (n : Nat) : Nat := (c.arena.arena 0).transitionBytes n

/-- What is free before. -/
def live : Int := c.engine.freeMemory .first c.world

/-- What the commit and the headroom take. -/
def required : Int := c.engine.requiredFree c.world c.targetPages

/-- What is free with the arena at `n`. -/
def freeAt (n : Nat) : Int := c.live + c.bytes c.current - c.bytes n

/-- The world in which the arena was shrunk to `n`. -/
def shrunk (n : Nat) : World := { c.world with arena := c.arena.arena n, moeCacheSize := n }

/-- What the claim of a grow is about: a boundary, a target above the committed pages that the
pool can hold, and a free memory that follows the ledger. -/
structure Wellformed (c : GrowCase) : Prop where
  current : c.current ∈ c.arena.boundaries
  above : c.world.pool.committedPages < c.targetPages
  below : c.targetPages < c.pool.logicalNumPages
  ledger : ∀ n ∈ c.arena.boundaries, n < c.current →
    (c.engine.freeMemory .second (c.shrunk n) : Int) = c.freeAt n

/-- The grow goes through. -/
def Succeeds : Prop :=
  ∃ f w r, c.engine.growArena .none c.world c.targetPages = .done f w r

/-- Some boundary above the floor pays for it. -/
def Fundable : Prop :=
  ∃ b ∈ c.arena.boundaries, c.floor ≤ b ∧ b ≤ c.current ∧ c.required ≤ c.freeAt b

/-- A grow is refused only when it cannot be funded, and passes no slots that are rejected. -/
structure RefusedOnlyUnfunded : Prop where
  succeeds_iff : c.Succeeds ↔ c.Fundable
  accepted : ∀ n ∈ c.engine.passed c.world c.targetPages, c.arena.Accepts c.current n

/-- The boundary brings the free memory up to the requirement and the margin. -/
def Reaches (b : Nat) : Prop :=
  b ∈ c.arena.boundaries ∧ c.required + PREFILL_HEADROOM_MARGIN_BYTES ≤ c.freeAt b

/-- The floors do not stand in the way. -/
structure Unhindered : Prop where
  /-- With enough free, the arena is not below its floor. -/
  above : c.required + PREFILL_HEADROOM_MARGIN_BYTES ≤ c.live → c.floor ≤ c.current
  /-- At its floor, the arena is not short of the margin alone. -/
  margin : c.live < c.required + PREFILL_HEADROOM_MARGIN_BYTES → c.current = c.floor →
    c.live < c.required
  /-- Above it, the way down ends at a boundary that `set_usable_slots` accepts. -/
  target : c.live < c.required + PREFILL_HEADROOM_MARGIN_BYTES → c.floor < c.current →
    (∃ b, c.Reaches b ∧ c.floor ≤ b ∧ (c.arena.arena 0).jointFloor ≤ b) ∨
      (∀ b, c.Reaches b → b < c.floor) ∧ c.floor ∈ c.arena.boundaries ∧
        (c.arena.arena 0).jointFloor ≤ c.floor

/-! ## What a grow comes to -/

variable {c : GrowCase}

theorem freeAt_anti {b b' : Nat} (h : b ≤ b') : c.freeAt b' ≤ c.freeAt b := by
  have hmono := (c.arena.arena 0).transitionBytes_mono h
  unfold freeAt bytes
  omega

/-- What a boundary has to give back, put as what is free once it is given back. -/
theorem gives_iff_freeAt {desired : Int} {top b : Nat} :
    desired - c.live + ((c.bytes top : Int) - c.bytes c.current) ≤ (c.bytes top : Int) - c.bytes b ↔
      desired ≤ c.freeAt b := by
  unfold freeAt
  generalize (c.bytes top : Int) = all
  generalize (c.bytes c.current : Int) = now
  omega

/-- The arena is asked for the greatest boundary that leaves so much free. -/
theorem usableFor_eq (desired : Int) :
    c.world.arena.usableForTargetFreeBytes (desired - c.live +
        ((c.world.arena.transitionBytes (c.world.arena.boundaries.getLastD 0) : Int) -
          c.world.arena.transitionBytes c.world.arena.cacheSize)) =
      (c.arena.boundaries.filter fun b => desired ≤ c.freeAt b).foldl max 0 := by
  have hbytes : ∀ m, c.world.arena.transitionBytes m = c.bytes m :=
    fun m => ArenaSpec.transitionBytes_eq
  have hsize : c.world.arena.cacheSize = c.current := rfl
  unfold Arena.usableForTargetFreeBytes
  refine congrArg (List.foldl max 0) (List.filter_congr fun b _ => decide_eq_decide.mpr ?_)
  rw [hbytes, hbytes, hbytes, hsize]
  exact gives_iff_freeAt

/-- The slots of the first shrink: the greatest boundary that reaches, or the floor. -/
theorem firstTarget_spec :
    let t := Engine.firstTarget c.world c.live (c.required + PREFILL_HEADROOM_MARGIN_BYTES)
    (c.Reaches t ∧ c.floor ≤ t ∧ ∀ b, c.Reaches b → b ≤ t) ∨
      t = c.floor ∧ ∀ b, c.Reaches b → b ≤ c.floor := by
  intro t
  have ht : t = max ((c.arena.boundaries.filter fun b =>
      c.required + PREFILL_HEADROOM_MARGIN_BYTES ≤ c.freeAt b).foldl max 0) c.floor :=
    congrArg (max · c.floor) (usableFor_eq (c.required + PREFILL_HEADROOM_MARGIN_BYTES))
  have hmem : ∀ b, b ∈ c.arena.boundaries.filter (fun b =>
      c.required + PREFILL_HEADROOM_MARGIN_BYTES ≤ c.freeAt b) ↔ c.Reaches b := by
    simp [Reaches]
  clear_value t
  generalize c.arena.boundaries.filter (fun b =>
    c.required + PREFILL_HEADROOM_MARGIN_BYTES ≤ c.freeAt b) = reaching at ht hmem
  obtain ⟨-, hall, hfrom⟩ := Lib.foldl_max_spec reaching 0
  rcases Nat.lt_or_ge c.floor (reaching.foldl max 0) with hlt | hge
  · left
    rw [ht, Nat.max_eq_left hlt.le]
    have hpos : reaching.foldl max 0 ≠ 0 := Nat.ne_of_gt (Nat.zero_lt_of_lt hlt)
    refine ⟨(hmem _).mp (hfrom.resolve_left hpos), hlt.le, fun b hb => ?_⟩
    exact hall b ((hmem b).mpr hb)
  · -- no boundary above the floor reaches, so the floor it is
    right
    rw [ht]
    exact ⟨Nat.max_eq_right hge, fun b hb => (hall b ((hmem b).mpr hb)).trans hge⟩

theorem topUp_stop {floor target released rounds : Nat} {before required live : Int} {f : Fault}
    {w : World} (h : ¬(live < required ∧ floor < target)) :
    Engine.topUp floor before required rounds f w target released live = .done f w live := by
  rcases rounds with _ | rounds
  · rfl
  · rw [Engine.topUp, if_neg h]

theorem passedByTopUp_stop {floor target released rounds : Nat} {before required live : Int}
    {w : World} (h : ¬(live < required ∧ floor < target)) :
    Engine.passedByTopUp floor before required rounds w target released live = [] := by
  rcases rounds with _ | rounds
  · rfl
  · rw [Engine.passedByTopUp, if_neg h]

/-- With the memory there, the commit goes through. -/
theorem commit_done (h : c.Wellformed) {w : World} (hpool : w.pool = c.world.pool) :
    ∃ f' w' r, ((w.commitPages .none c.targetPages).bind fun f w _ =>
      c.engine.syncAllRanks f w) = .done f' w' r := by
  have hbelow : c.targetPages < (c.pool.pool.calls c.calls).logicalNumPages := by
    rw [c.pool.calls_logicalNumPages]
    exact h.below
  obtain ⟨q, hq⟩ := (c.pool.calls_exact c.calls).commits c.targetPages hbelow
  have hcommit : w.pool.commitPages .none c.targetPages = .done .none q := by
    rw [hpool]
    exact hq
  rw [World.commitPages_done hcommit]
  show ∃ f' w' r, c.engine.syncAllRanks .none { w with pool := q } = .done f' w' r
  unfold Engine.syncAllRanks
  split
  · exact ⟨_, _, _, rfl⟩
  · exact ⟨_, _, _, rfl⟩

theorem succeeds_iff :
    c.Succeeds ↔ ∃ f w r, c.engine.growTransaction .none c.world c.targetPages = .done f w r := by
  unfold Succeeds Engine.growArena
  cases hrun : c.engine.growTransaction .none c.world c.targetPages with
  | raised w =>
    constructor
    · rintro ⟨f, w', r, h⟩
      cases h
    · rintro ⟨f, w', r, h⟩
      cases h
  | done f w r => exact ⟨fun _ => ⟨f, w, r, rfl⟩, fun _ => ⟨_, _, _, rfl⟩⟩

theorem firstShrink_eq (desired : Int) :
    Engine.firstShrink .none c.world c.world.arena.floorSlots c.live desired =
      if c.live < desired then
        if c.current ≤ Engine.firstTarget c.world c.live desired then .raised c.world
        else
          (c.world.setUsableSlots .none (Engine.firstTarget c.world c.live desired)).bind
            fun f w released =>
              .done f { w with moeCacheSize := Engine.firstTarget c.world c.live desired }
                (Engine.firstTarget c.world c.live desired, released)
      else .done .none c.world (c.current, 0) := rfl

theorem passed_eq :
    c.engine.passed c.world c.targetPages =
      if c.live < c.required + PREFILL_HEADROOM_MARGIN_BYTES then
        if c.current ≤
            Engine.firstTarget c.world c.live (c.required + PREFILL_HEADROOM_MARGIN_BYTES) then []
        else c.engine.passedFrom c.world c.live c.required
          (Engine.firstTarget c.world c.live (c.required + PREFILL_HEADROOM_MARGIN_BYTES))
      else
        Engine.passedByTopUp c.floor c.live c.required c.current c.world c.current 0
          (max (c.engine.freeMemory .second c.world : Int) c.live) := rfl

/-- Behind a first shrink that needs no more, the ledger decides. -/
theorem transaction_of_first (h : c.Wellformed) {w : World} {t released : Nat}
    (hfirst : Engine.firstShrink .none c.world c.world.arena.floorSlots c.live
      (c.required + PREFILL_HEADROOM_MARGIN_BYTES) = .done .none w (t, released))
    (hpool : w.pool = c.world.pool) {live : Int}
    (hlive : max (c.engine.freeMemory .second w : Int) (c.live + released) = live)
    (hstop : ¬(live < c.required ∧ c.floor < t)) : c.Succeeds ↔ c.required ≤ live := by
  have htransaction : c.engine.growTransaction .none c.world c.targetPages =
      if live < c.required then .raised w
      else (w.commitPages .none c.targetPages).bind fun f w _ => c.engine.syncAllRanks f w := by
    unfold Engine.growTransaction
    simp only
    show Outcome.bind (Engine.firstShrink .none c.world c.world.arena.floorSlots c.live
      (c.required + PREFILL_HEADROOM_MARGIN_BYTES)) _ = _
    rw [hfirst]
    show Outcome.bind (Engine.topUp c.floor c.live c.required t .none w t released
      (max (c.engine.freeMemory .second w : Int) (c.live + released))) _ = _
    rw [hlive, topUp_stop hstop]
    rfl
  rw [succeeds_iff, htransaction]
  constructor
  · rintro ⟨f, w', r, hdone⟩
    by_contra hshort
    rw [if_pos (not_le.mp hshort)] at hdone
    cases hdone
  · intro hfunded
    rw [if_neg (not_lt.mpr hfunded)]
    exact commit_done h hpool

theorem margin_nonneg : (0 : Int) ≤ PREFILL_HEADROOM_MARGIN_BYTES := Int.natCast_nonneg _

/-- With the margin free, nothing is shrunk. -/
theorem ample (h : c.Wellformed) (hlive : c.required + PREFILL_HEADROOM_MARGIN_BYTES ≤ c.live) :
    c.Succeeds ∧ c.engine.passed c.world c.targetPages = [] := by
  have hmargin := margin_nonneg
  have hfirst : Engine.firstShrink .none c.world c.world.arena.floorSlots c.live
      (c.required + PREFILL_HEADROOM_MARGIN_BYTES) = .done .none c.world (c.current, 0) := by
    rw [firstShrink_eq, if_neg (by omega)]
  refine ⟨?_, ?_⟩
  · rw [transaction_of_first h hfirst rfl rfl (by omega)]
    omega
  · rw [passed_eq, if_neg (by omega), passedByTopUp_stop (by omega)]

/-- Short of the margin, an arena at its floor or below it is left alone, and the grow refused. -/
theorem refused_at_floor (hlive : c.live < c.required + PREFILL_HEADROOM_MARGIN_BYTES)
    (hfloor : c.current ≤
      Engine.firstTarget c.world c.live (c.required + PREFILL_HEADROOM_MARGIN_BYTES)) :
    ¬c.Succeeds ∧ c.engine.passed c.world c.targetPages = [] := by
  refine ⟨fun hs => ?_, ?_⟩
  · have hfirst : Engine.firstShrink .none c.world c.world.arena.floorSlots c.live
        (c.required + PREFILL_HEADROOM_MARGIN_BYTES) = .raised c.world := by
      rw [firstShrink_eq, if_pos hlive, if_pos hfloor]
    obtain ⟨f, w, r, hdone⟩ := succeeds_iff.mp hs
    unfold Engine.growTransaction at hdone
    simp only at hdone
    have hraised : Outcome.bind (Engine.firstShrink .none c.world c.world.arena.floorSlots c.live
        (c.required + PREFILL_HEADROOM_MARGIN_BYTES)) _ = .done f w r := hdone
    rw [hfirst] at hraised
    cases hraised
  · rw [passed_eq, if_pos hlive, if_pos hfloor]

/-- A target that is not accepted is passed all the same. -/
theorem rejected (h : c.Wellformed)
    (hlive : c.live < c.required + PREFILL_HEADROOM_MARGIN_BYTES) {t : Nat}
    (ht : Engine.firstTarget c.world c.live (c.required + PREFILL_HEADROOM_MARGIN_BYTES) = t)
    (hlt : t < c.current) (hreject : ¬c.arena.Accepts c.current t) :
    c.engine.passed c.world c.targetPages = [t] := by
  obtain ⟨r, hr⟩ := (ArenaSpec.setUsableSlots_iff h.current hlt).2 hreject
  have hset : c.world.setUsableSlots .none t = .raised { c.world with arena := r.1 } :=
    World.setUsableSlots_raised hr
  rw [passed_eq, if_pos hlive, ht, if_neg (by omega), Engine.passedFrom, hset]

/-- A target that is accepted is shrunk to, and no further. -/
theorem resized (h : c.Wellformed)
    (hlive : c.live < c.required + PREFILL_HEADROOM_MARGIN_BYTES) {t : Nat}
    (ht : Engine.firstTarget c.world c.live (c.required + PREFILL_HEADROOM_MARGIN_BYTES) = t)
    (hlt : t < c.current) (haccept : c.arena.Accepts c.current t)
    (hstop : c.required ≤ c.freeAt t ∨ t ≤ c.floor) :
    (c.Succeeds ↔ c.required ≤ c.freeAt t) ∧ c.engine.passed c.world c.targetPages = [t] := by
  obtain ⟨released, hr, hbytes⟩ := (ArenaSpec.setUsableSlots_iff h.current hlt).1 haccept
  have hboundary : t ∈ c.arena.boundaries := by
    rcases haccept with heq | hb
    · omega
    · exact hb.1
  have hset : c.world.setUsableSlots .none t =
      .done .none { c.world with arena := c.arena.arena t } released :=
    World.setUsableSlots_done (r := (c.arena.arena t, released)) hr
  have hledger : max (c.engine.freeMemory .second (c.shrunk t) : Int) (c.live + released) =
      c.freeAt t := by
    rw [h.ledger t hboundary hlt]
    unfold freeAt bytes
    omega
  have hstop' : ¬(c.freeAt t < c.required ∧ c.floor < t) := by omega
  refine ⟨?_, ?_⟩
  · have hfirst : Engine.firstShrink .none c.world c.world.arena.floorSlots c.live
        (c.required + PREFILL_HEADROOM_MARGIN_BYTES) = .done .none (c.shrunk t) (t, released) := by
      rw [firstShrink_eq, if_pos hlive, ht, if_neg (by omega), hset]
      rfl
    exact transaction_of_first h hfirst rfl hledger hstop'
  · rw [passed_eq, if_pos hlive, ht, if_neg (by omega), Engine.passedFrom, hset]
    show t :: Engine.passedByTopUp c.floor c.live c.required t (c.shrunk t) t released
      (max (c.engine.freeMemory .second (c.shrunk t) : Int) (c.live + released)) = [t]
    rw [hledger, passedByTopUp_stop hstop']

/-! ## When the claim holds -/

/-- A target that is accepted is all that a grow needs. -/
theorem of_accepted (h : c.Wellformed)
    (hlive : c.live < c.required + PREFILL_HEADROOM_MARGIN_BYTES) {t : Nat}
    (ht : Engine.firstTarget c.world c.live (c.required + PREFILL_HEADROOM_MARGIN_BYTES) = t)
    (hlt : t < c.current) (haccept : c.arena.Accepts c.current t) : c.RefusedOnlyUnfunded := by
  have hmargin := margin_nonneg
  have hspec := @firstTarget_spec c
  simp only [ht] at hspec
  have hstop : c.required ≤ c.freeAt t ∨ t ≤ c.floor := by
    rcases hspec with ⟨hreach, -⟩ | ⟨rfl, -⟩
    · have := hreach.2
      omega
    · exact Or.inr (Nat.le_refl _)
  obtain ⟨hsucceeds, hpassed⟩ := resized h hlive ht hlt haccept hstop
  have hfloor : c.floor ≤ t := by
    rcases hspec with ⟨-, hft, -⟩ | ⟨rfl, -⟩
    · exact hft
    · exact Nat.le_refl _
  refine ⟨⟨fun hs => ?_, ?_⟩, fun n hn => ?_⟩
  · exact ⟨t, (haccept.resolve_left hlt.ne).1, hfloor, hlt.le, hsucceeds.mp hs⟩
  · rintro ⟨b, -, hfb, -, hfunds⟩
    refine hsucceeds.mpr (hstop.elim id fun htf => ?_)
    -- the floor gives back more than any boundary above it
    have := @freeAt_anti c t b (htf.trans hfb)
    omega
  · rw [hpassed, List.mem_singleton] at hn
    rw [hn]
    exact haccept

theorem unhindered_of_accepted {t : Nat}
    (ht : Engine.firstTarget c.world c.live (c.required + PREFILL_HEADROOM_MARGIN_BYTES) = t)
    (hlt : t < c.current) (hfloor : c.floor < c.current)
    (haccept : c.arena.Accepts c.current t) : c.Unhindered := by
  obtain ⟨hboundary, hjoint⟩ := haccept.resolve_left hlt.ne
  have hspec := @firstTarget_spec c
  simp only [ht] at hspec
  refine ⟨fun _ => hfloor.le, fun _ heq => by omega, fun _ _ => ?_⟩
  rcases hspec with ⟨hreach, hft, -⟩ | ⟨rfl, hall⟩
  · exact Or.inl ⟨t, hreach, hft, hjoint⟩
  · by_cases hreach : c.Reaches c.floor
    · exact Or.inl ⟨c.floor, hreach, Nat.le_refl _, hjoint⟩
    · refine Or.inr ⟨fun b hb => lt_of_le_of_ne (hall b hb) ?_, hboundary, hjoint⟩
      rintro rfl
      exact hreach hb

theorem accepted_of_unhindered {t : Nat}
    (ht : Engine.firstTarget c.world c.live (c.required + PREFILL_HEADROOM_MARGIN_BYTES) = t)
    (hu : (∃ b, c.Reaches b ∧ c.floor ≤ b ∧ (c.arena.arena 0).jointFloor ≤ b) ∨
      (∀ b, c.Reaches b → b < c.floor) ∧ c.floor ∈ c.arena.boundaries ∧
        (c.arena.arena 0).jointFloor ≤ c.floor) : c.arena.Accepts c.current t := by
  have hspec := @firstTarget_spec c
  simp only [ht] at hspec
  rcases hu with ⟨b, hb, hfb, hjb⟩ | ⟨hnone, hboundary, hjoint⟩
  · rcases hspec with ⟨hreach, -, hall⟩ | ⟨rfl, hall⟩
    · exact Or.inr ⟨hreach.1, hjb.trans (hall b hb)⟩
    · obtain rfl : b = c.floor := Nat.le_antisymm (hall b hb) hfb
      exact Or.inr ⟨hb.1, hjb⟩
  · rcases hspec with ⟨hreach, hft, -⟩ | ⟨rfl, -⟩
    · have := hnone t hreach
      omega
    · exact Or.inr ⟨hboundary, hjoint⟩

theorem refusedOnlyUnfunded_iff (h : c.Wellformed) : c.RefusedOnlyUnfunded ↔ c.Unhindered := by
  have hmargin := margin_nonneg
  have hself : c.freeAt c.current = c.live := by
    unfold freeAt
    omega
  rcases Int.lt_or_le c.live (c.required + PREFILL_HEADROOM_MARGIN_BYTES) with hlive | hlive
  · obtain ⟨t, ht⟩ : ∃ t, Engine.firstTarget c.world c.live
        (c.required + PREFILL_HEADROOM_MARGIN_BYTES) = t := ⟨_, rfl⟩
    have hspec := @firstTarget_spec c
    simp only [ht] at hspec
    -- a boundary that reaches is below the current one
    have hbelow : ∀ b, c.Reaches b → b < c.current := by
      intro b hb
      by_contra hle
      have hanti := @freeAt_anti c _ _ (not_lt.mp hle)
      have hreach := hb.2
      omega
    rcases Nat.lt_or_ge c.floor c.current with hfloor | hfloor
    · have hlt : t < c.current := by
        rcases hspec with ⟨hreach, -⟩ | ⟨rfl, -⟩
        · exact hbelow t hreach
        · exact hfloor
      by_cases haccept : c.arena.Accepts c.current t
      · exact iff_of_true (of_accepted h hlive ht hlt haccept) (unhindered_of_accepted ht hlt
          hfloor haccept)
      · have hpassed := rejected h hlive ht hlt haccept
        refine iff_of_false (fun hr => haccept ?_) fun hu => haccept ?_
        · exact hr.accepted t (by rw [hpassed]; exact List.mem_singleton_self t)
        · exact accepted_of_unhindered ht (hu.target hlive hfloor)
    · have hle : c.current ≤ t := by
        rcases hspec with ⟨-, hft, -⟩ | ⟨rfl, -⟩ <;> omega
      rw [← ht] at hle
      obtain ⟨hfail, hnone⟩ := refused_at_floor hlive hle
      constructor
      · rintro ⟨hiff, -⟩
        refine ⟨fun _ => by omega, fun _ heq => ?_, fun _ _ => by omega⟩
        by_contra hfunded
        refine hfail (hiff.mpr ⟨c.current, h.current, by omega, le_rfl, ?_⟩)
        omega
      · rintro ⟨-, hshort, -⟩
        refine ⟨⟨fun hs => (hfail hs).elim, ?_⟩, fun n hn => ?_⟩
        · rintro ⟨b, -, hfb, hbc, hfunds⟩
          obtain rfl : b = c.current := by omega
          have := hshort hlive (by omega)
          omega
        · rw [hnone] at hn
          cases hn
  · obtain ⟨hs, hnone⟩ := ample h hlive
    constructor
    · rintro ⟨hiff, -⟩
      obtain ⟨b, -, hfb, hbc, -⟩ := hiff.mp hs
      exact ⟨fun _ => hfb.trans hbc, fun hlt => by omega, fun hlt => by omega⟩
    · rintro ⟨habove, -, -⟩
      refine ⟨⟨fun _ => ⟨c.current, h.current, habove hlive, le_rfl, by omega⟩, fun _ => hs⟩,
        fun n hn => ?_⟩
      rw [hnone] at hn
      cases hn

end GrowCase

/-- **A grow is refused only when it cannot be funded, just where the floors do not stand in the
way**: the arena is not at its floor with the margin alone missing, and the slots it goes to are a
boundary above both floors. -/
theorem funded_iff (c : GrowCase) (h : c.Wellformed) : c.RefusedOnlyUnfunded ↔ c.Unhindered :=
  GrowCase.refusedOnlyUnfunded_iff h

/-- One class of four slots in chunks of two, at its floor, and some bytes free. -/
def atFloor (freeBytes : Nat) : GrowCase where
  engine :=
    { numPages := 9
      prefillTransientBytes := 0
      growableMoeCeiling := none
      freeMemory := fun _ w =>
        freeBytes + w.arena.transitionBytes 2 - w.arena.transitionBytes w.arena.cacheSize
      planRefuses := fun _ _ => false }
  pool :=
    { entries := [⟨2, 1024, 4096, by decide, by decide⟩]
      logicalNumPages := 10
      growStepPages := 2
      initialCommittedPages := 2
      growStep_pos := Nat.two_pos
      initial_lt := by decide }
  calls := []
  arena :=
    { layouts := [(4, 2)]
      banks := [(⟨0, 4, 2⟩, 3000)]
      numExperts := 2
      prefillOverlap := false
      minGpuSlots := 0
      steps := by decide
      classes := by decide }
  current := 2
  targetPages := 4

theorem atFloor_live (freeBytes : Nat) : (atFloor freeBytes).live = freeBytes := by
  show ((freeBytes + (atFloor freeBytes).world.arena.transitionBytes 2 -
    (atFloor freeBytes).world.arena.transitionBytes 2 : Nat) : Int) = freeBytes
  rw [Nat.add_sub_cancel]

theorem atFloor_floor (freeBytes : Nat) : (atFloor freeBytes).floor = 2 := by
  show max 2 ((0 + 2 - 1) / 2 * 2) = 2
  omega

/-- Two slabs of one more granule, and the cushion. -/
theorem atFloor_required (freeBytes : Nat) :
    (atFloor freeBytes).required = 8192 + 268435456 := by
  have htarget : (atFloor freeBytes).world.kvBytes 4 = 16384 := by
    show 2 * (((4 + 1) * 1024 + 4096 - 1) / 4096 * 4096) + 0 = 16384
    omega
  have hcommitted : (atFloor freeBytes).world.kvBytes 2 = 8192 := by
    show 2 * (((2 + 1) * 1024 + 4096 - 1) / 4096 * 4096) + 0 = 8192
    omega
  have hheadroom : (atFloor freeBytes).engine.headroomBytes = 268435456 := by
    show max (256 * 1024 * 1024) 0 = 268435456
    omega
  show ((atFloor freeBytes).world.kvBytes 4 : Int) - (atFloor freeBytes).world.kvBytes 2 +
    (atFloor freeBytes).engine.headroomBytes = _
  rw [htarget, hcommitted, hheadroom]
  omega

theorem margin_eq : (PREFILL_HEADROOM_MARGIN_BYTES : Int) = 134217728 := by
  unfold PREFILL_HEADROOM_MARGIN_BYTES
  omega

theorem atFloor_boundaries (freeBytes : Nat) : (atFloor freeBytes).arena.boundaries = [0, 2, 4] := by
  have hfour : chunksFrom 4 2 4 = [] := by
    rw [chunksFrom, dif_neg (by decide)]
  have htwo : chunksFrom 4 2 2 = [4] := by
    rw [chunksFrom, dif_pos (by decide)]
    exact congrArg (4 :: ·) hfour
  have hzero : chunksFrom 4 2 0 = [2, 4] := by
    rw [chunksFrom, dif_pos (by decide)]
    exact congrArg (2 :: ·) htwo
  show 0 :: (((chunksFrom 4 2 0).map fun slots : Nat => 0 + slots) ++ []) = _
  rw [hzero]
  rfl

theorem atFloor_wellformed (freeBytes : Nat) : (atFloor freeBytes).Wellformed := by
  refine ⟨?_, ?_, ?_, fun n _ hlt => ?_⟩
  · rw [atFloor_boundaries]
    show 2 ∈ [0, 2, 4]
    decide
  · show 2 < 4
    decide
  · show 4 < 10
    decide
  · -- what is free with the arena at `n` is what was free, and what the arena gave back
    have hbytes : ∀ m, ((atFloor freeBytes).arena.arena n).transitionBytes m =
        (atFloor freeBytes).bytes m := fun m => ArenaSpec.transitionBytes_eq
    have hmono : (atFloor freeBytes).bytes n ≤ (atFloor freeBytes).bytes 2 :=
      Arena.transitionBytes_mono (le_of_lt hlt)
    show ((freeBytes + ((atFloor freeBytes).arena.arena n).transitionBytes 2 -
      ((atFloor freeBytes).arena.arena n).transitionBytes n : Nat) : Int) =
        (atFloor freeBytes).live + (atFloor freeBytes).bytes 2 - (atFloor freeBytes).bytes n
    rw [hbytes, hbytes, atFloor_live]
    omega

/-- With a gigabyte free the claim holds. -/
theorem funded_iff_atFloor : (atFloor (1024 * 1024 * 1024)).RefusedOnlyUnfunded := by
  refine (funded_iff _ (atFloor_wellformed _)).mpr ⟨fun _ => ?_, fun hlt => ?_, fun hlt => ?_⟩
  · rw [atFloor_floor]
    exact Nat.le_refl 2
  · rw [atFloor_required, atFloor_live, margin_eq] at hlt
    omega
  · rw [atFloor_required, atFloor_live, margin_eq] at hlt
    omega

/-- **The margin is a reason to refuse**: with 320 MiB free, and 256 MiB and 8 KiB required, an
arena at its floor is asked for the margin as well. -/
theorem margin_refuses :
    (atFloor (320 * 1024 * 1024)).Wellformed ∧
      ¬(atFloor (320 * 1024 * 1024)).RefusedOnlyUnfunded := by
  refine ⟨atFloor_wellformed _, fun h => ?_⟩
  have hmargin := ((GrowCase.refusedOnlyUnfunded_iff (atFloor_wellformed _)).mp h).margin
  rw [atFloor_required, atFloor_live, atFloor_floor, margin_eq] at hmargin
  have hshort := hmargin (by omega) rfl
  omega

end FreeToken.Growable
