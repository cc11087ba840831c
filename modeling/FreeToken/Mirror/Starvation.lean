import FreeToken.Lib.Reach
import FreeToken.Mirror.WarmStart

/-!
# Free rows for every victim

Runs of a mirror after its warm start: prefill chunks, decode launches and write-backs
that land, in any order.

* `prefetchAll_serves` — a chunk finds a row for every sole copy it overwrites.
* `step_serves` — so does every step that keeps to the sizes.
* `never_starves` — in every run of a mirror whose reserve covers the double buffer, one
  launch and the ring, no counter of faults moves.
-/

namespace FreeToken.Mirror

open FreeToken.Lib Function

variable {β : Type} {g : Geometry} {region slack : Nat}

/-! ## A prefill chunk -/

/-- Between two calls of a chunk, as far as the maps go. -/
structure Snapped (g : Geometry) (region slack : Nat) (st : PrefillState β) : Prop where
  located : Located g none st.mirror
  published : st.mirror.freedRows = []
  roomy : Roomy region slack st.mirror
  slotSnapshot : st.slotSnapshot = st.mirror.slotForId
  poolSnapshot : st.poolSnapshot = st.mirror.poolRowOfId

theorem dropOccupant_located {st : PrefillState β} (h : Located g none st.mirror) {slot old row : Nat}
    (hold : st.mirror.idOfSlot slot = some old) (hrow : st.mirror.poolRowOfId old = some row) :
    Located g none (dropOccupant slot old st).mirror := by
  refine ⟨h.slots.unlink ((h.slots _ _).mpr hold), h.rows, h.free, h.inPool, fun id hid _ => ?_⟩
  by_cases heq : id = old
  · exact Or.inr (by simp [dropOccupant, heq, hrow])
  · simpa [dropOccupant, heq] using h.covered id hid (by simp)

theorem writeBack_located {st : PrefillState β} (h : Located g none st.mirror)
    (hpub : st.mirror.freedRows = []) {slot old row : Nat} {free : List Nat}
    (hnone : st.mirror.poolRowOfId old = none) (hfree : st.mirror.freeRows = row :: free) :
    Located g none (writeBack slot old row free st).mirror := by
  have hunowned : Unowned (· < g.capacity) st.mirror.idOfPoolRow (row :: free) := by
    have := h.free
    rwa [hpub, List.nil_append, hfree] at this
  have hrow := (hunowned.mem_iff row).mp List.mem_cons_self
  refine ⟨h.slots, h.rows.link hnone hrow.2, ?_, fun row' id hid => ?_, fun id hid _ => ?_⟩
  · change Unowned _ _ (st.mirror.freedRows ++ free)
    rw [hpub]
    exact hunowned.pop old
  · by_cases heq : row' = row
    · exact heq ▸ hrow.1
    · exact h.inPool row' id (by simpa [writeBack, heq] using hid)
  · by_cases heq : id = old
    · exact Or.inr (by simp [writeBack, heq])
    · simpa [writeBack, heq] using h.covered id hid (by simp)

/-- A slot of the counted region is vacated without a fault. -/
theorem vacate_snapped {st : PrefillState β} (h : Snapped g region slack st) {slot : Nat}
    (hslot : slot < region) :
    Snapped g region slack (vacate st slot) ∧
      SameFaults st.mirror.stats (vacate st slot).mirror.stats ∧
      (vacate st slot).mirror.ring = st.mirror.ring := by
  have hroomy : soleCopies st.mirror (List.range region) + slack ≤ st.mirror.freeRows.length := by
    simpa [Roomy, h.published] using h.roomy
  -- a sole copy is one of those for which rows are kept free
  have hroom : soleCopy st.mirror slot = true → st.mirror.freeRows ≠ [] := by
    intro hsole hnil
    have : 0 < soleCopies st.mirror (List.range region) :=
      List.countP_pos_iff.mpr ⟨slot, List.mem_range.mpr hslot, hsole⟩
    rw [hnil, List.length_nil] at hroomy
    omega
  have hchange := soleCopies_change (m := st.mirror)
    List.nodup_range (List.mem_range.mpr hslot) fun slot' hne =>
      vacate_soleCopy h.located.slots hne
  have hempty : soleCopy (vacate st slot).mirror slot = false := by
    simp [soleCopy, vacate_idOfSlot]
  have hfree := vacate_freeRows st slot hroom
  rw [hempty] at hchange
  have hroomy' : (vacate st slot).mirror.freedRows = [] → Roomy region slack (vacate st slot).mirror := by
    intro hpub
    rw [Roomy, hpub, List.length_nil]
    simp only [Bool.false_eq_true, if_false] at hchange
    omega
  cases hold : st.mirror.idOfSlot slot with
  | none =>
    rw [vacate_of_empty hold]
    exact ⟨h, ⟨rfl, rfl⟩, rfl⟩
  | some old =>
    cases hrow : st.mirror.poolRowOfId old with
    | some row =>
      -- the pool has the expert too, so it is only dropped
      rw [vacate_of_duplicate hold hrow] at hroomy' ⊢
      refine ⟨⟨?_, h.published, hroomy' h.published, ?_, h.poolSnapshot⟩, ⟨rfl, rfl⟩, rfl⟩
      · refine dropOccupant_located ?_ hold hrow
        exact ⟨h.located.slots, h.located.rows, h.located.free, h.located.inPool, h.located.covered⟩
      · simp only [dropOccupant, bumpBufferFreeEvictions, h.slotSnapshot]
    | none =>
      cases hnil : st.mirror.freeRows with
      | nil => exact absurd hnil (hroom (by simp [soleCopy, hold, hrow]))
      | cons row free =>
        rw [vacate_of_sole hold hrow hnil] at hroomy' ⊢
        refine ⟨⟨?_, h.published, hroomy' h.published, ?_, ?_⟩, ⟨rfl, rfl⟩, rfl⟩
        · have hown : (writeBack slot old row free st).mirror.poolRowOfId old = some row := by
            simp [writeBack]
          exact dropOccupant_located (writeBack_located h.located h.published hrow hnil) hold hown
        · simp only [dropOccupant, writeBack, h.slotSnapshot]
        · simp only [dropOccupant, writeBack, h.poolSnapshot]

/-- What a part of a chunk keeps. -/
structure Fed (g : Geometry) (region slack : Nat) (st st' : PrefillState β) : Prop where
  snapped : Snapped g region slack st'
  faults : SameFaults st.mirror.stats st'.mirror.stats
  ring : st'.mirror.ring = st.mirror.ring

theorem Fed.trans {st st' st'' : PrefillState β} (h : Fed g region slack st st')
    (h' : Fed g region slack st' st'') : Fed g region slack st st'' :=
  ⟨h'.snapped, ⟨h'.faults.1.trans h.faults.1, h'.faults.2.trans h.faults.2⟩, h'.ring.trans h.ring⟩

theorem vacateAll_fed {slots : List Nat} {st : PrefillState β} (h : Snapped g region slack st)
    (hslots : ∀ slot ∈ slots, slot < region) :
    Fed g region slack st (slots.foldl vacate st) := by
  induction slots generalizing st with
  | nil => exact ⟨h, ⟨rfl, rfl⟩, rfl⟩
  | cons slot slots ih =>
    obtain ⟨hsnap, hfault, hring⟩ := vacate_snapped h (hslots slot List.mem_cons_self)
    have hone : Fed g region slack st (vacate st slot) := ⟨hsnap, hfault, hring⟩
    exact hone.trans (ih hsnap fun s hs => hslots s (List.mem_cons_of_mem _ hs))

theorem halfSlots_lt {bufferId slot : Nat} (hb : bufferId < 2) (hslot : slot ∈ halfSlots g bufferId) :
    slot < g.prefillBufferSlots := by
  rw [halfSlots, List.mem_range'_1] at hslot
  rw [Geometry.prefillBufferSlots]
  have : bufferId = 0 ∨ bufferId = 1 := by omega
  rcases this with rfl | rfl <;> omega

/-- A call finds every expert of its layer, and a row for every sole copy of its half. -/
theorem prefetch_serves {st : PrefillState β} (h : Snapped g region slack st)
    (hregion : g.prefillBufferSlots ≤ region) {layerId bufferId : Nat} (hl : layerId < g.numLayers)
    (hb : bufferId < 2) :
    ∃ st', prefetchSplitMirror g layerId bufferId st = .ok st' ∧ Fed g region slack st st' := by
  have hfed := vacateAll_fed h fun slot hslot =>
    Nat.lt_of_lt_of_le (halfSlots_lt hb hslot) hregion
  rw [← mirrorWritebackBuffer_eq] at hfed
  unfold prefetchSplitMirror
  generalize mirrorWritebackBuffer g bufferId st = st₁ at hfed
  have hsnap := hfed.snapped
  have hfind : ((List.range g.numExperts).filter fun e =>
      st₁.slotSnapshot (layerId * g.numExperts + e) = none).find? (fun e =>
        st₁.poolSnapshot (layerId * g.numExperts + e) = none) = none := by
    refine List.find?_eq_none.mpr fun e he => ?_
    simp only [List.mem_filter, List.mem_range, decide_eq_true_eq] at he
    rw [hsnap.slotSnapshot] at he
    rw [hsnap.poolSnapshot]
    have := hsnap.located.covered _ (id_lt_total hl he.1) (by simp)
    simpa [he.2] using this
  simp only [hfind]
  have hloc := hsnap.located
  exact ⟨_, rfl, ⟨⟨hloc.slots, hloc.rows, hloc.free, hloc.inPool, hloc.covered⟩, hsnap.published,
    hsnap.roomy, hsnap.slotSnapshot, hsnap.poolSnapshot⟩, hfed.faults, hfed.ring⟩

/-- **A chunk is served, and no counter of faults moves.** -/
theorem prefetchAll_serves {st : PrefillState β} (h : Snapped g region slack st)
    (hregion : g.prefillBufferSlots ≤ region) {calls : List (Nat × Nat)}
    (hcalls : ∀ c ∈ calls, c.1 < g.numLayers ∧ c.2 < 2) :
    ∃ st', prefetchAll g calls st = .ok st' ∧ Fed g region slack st st' := by
  induction calls generalizing st with
  | nil => exact ⟨st, rfl, h, ⟨rfl, rfl⟩, rfl⟩
  | cons c calls ih =>
    obtain ⟨hl, hb⟩ := hcalls c List.mem_cons_self
    obtain ⟨st₁, hok, hfed⟩ := prefetch_serves h hregion hl hb
    obtain ⟨st', hall, hrest⟩ := ih hfed.snapped fun c hc => hcalls c (List.mem_cons_of_mem _ hc)
    refine ⟨st', ?_, hfed.trans hrest⟩
    rw [prefetchAll, hok]
    exact hall

/-! ## Runs -/

/-- What happens to a mirror. -/
inductive Event where
  | warmStart
  /-- A prefill chunk: the layers it stages, each with its half. -/
  | prefill (calls : List (Nat × Nat))
  /-- One layer launch of a decode step. -/
  | decode (layerId : Nat) (active victims : List Nat)
  /-- The pending copies before `done` land, in ring order, and `done` is published. -/
  | land (done : Nat)

/-- `_wb_issue` up to `done`. -/
def landUpTo (g : Geometry) (done : Nat) (m : Mirror β) : Mirror β :=
  { m with
    pool := (List.range' m.ring.done (done - m.ring.done)).foldl (m.land g) m.pool
    ring := { m.ring with done := done } }

/-- A step; `none` when it raises. -/
def step (g : Geometry) (data : Nat → β) (m : Mirror β) : Event → Option (Mirror β)
  | .warmStart =>
    match mirrorWarmStart g data m with
    | .ok m' => some m'
    | .error _ => none
  | .prefill calls =>
    match prefetchAll g calls (beginPrefill g m) with
    | .ok st => some st.mirror
    | .error _ => none
  | .decode layerId active victims => some (decodeLayer g layerId active victims m)
  | .land done => some (landUpTo g done m)

/-- Steps the engine may take; a launch has at most `burst` misses. -/
def Allowed (g : Geometry) (burst : Nat) (m : Mirror β) : Event → Prop
  | .warmStart => True
  | .prefill calls => ∀ c ∈ calls, c.1 < g.numLayers ∧ c.2 < 2
  | .decode layerId active victims =>
    layerId < g.numLayers ∧ ValidVictims g m layerId active victims ∧ victims.length ≤ burst
  | .land done => m.ring.done ≤ done ∧ done ≤ m.ring.head

instance (g : Geometry) (m : Mirror β) (layerId : Nat) (active victims : List Nat) :
    Decidable (ValidVictims g m layerId active victims) :=
  decidable_of_iff
    (victims.length = (missing g m layerId active).length ∧ victims.Nodup ∧
      (∀ slot ∈ victims, slot < g.cacheSize) ∧
      ∀ slot ∈ victims, ∀ e ∈ active, m.idOfSlot slot ≠ some (layerId * g.numExperts + e))
    ⟨fun h => ⟨h.1, h.2.1, h.2.2.1, h.2.2.2⟩, fun h => ⟨h.1, h.2, h.3, h.4⟩⟩

instance (g : Geometry) (burst : Nat) (m : Mirror β) :
    (event : Event) → Decidable (Allowed g burst m event)
  | .warmStart => inferInstanceAs (Decidable True)
  | .prefill calls => inferInstanceAs (Decidable (∀ c ∈ calls, c.1 < g.numLayers ∧ c.2 < 2))
  | .decode layerId active victims =>
    inferInstanceAs (Decidable (layerId < g.numLayers ∧ ValidVictims g m layerId active victims ∧
      victims.length ≤ burst))
  | .land done => inferInstanceAs (Decidable (m.ring.done ≤ done ∧ done ≤ m.ring.head))

/-- A mirror when it is attached, whatever its memory holds. -/
def attached (gpu pool stage : Nat → β) : Mirror β where
  idOfSlot := fun _ => none
  slotForId := fun _ => none
  poolRowOfId := fun _ => none
  idOfPoolRow := fun _ => none
  freeRows := []
  gpu := gpu
  pool := pool
  stage := stage

/-- Between two steps. -/
structure Served (g : Geometry) (region slack : Nat) (m : Mirror β) : Prop where
  located : Located g none m
  published : m.freedRows = []
  ring : RingOk g m.ring
  roomy : Roomy region slack m
  starved : m.stats.starved = 0
  violations : m.stats.violations = 0

theorem Served.snapped {m : Mirror β} (h : Served g region slack m) :
    Snapped g region slack (beginPrefill g m) :=
  have hloc := h.located
  ⟨⟨hloc.slots, hloc.rows, hloc.free, hloc.inPool, hloc.covered⟩, h.published, h.roomy, rfl, rfl⟩

/-- The reserve covers the double buffer, one launch and the ring, in an arena that leaves
it free; or the pool has a row for every expert and every ring slot. -/
def WellSized (g : Geometry) (burst : Nat) : Prop :=
  g.prefillBufferSlots + burst + g.wbStageRows ≤ g.reserveRows ∧
      g.total + g.reserveRows ≤ g.capacity + g.cacheSize ∨
    g.total + g.wbStageRows ≤ g.capacity

/-- The slots whose sole copies are counted, and the rows kept beside them. -/
structure Sizing (g : Geometry) (data : Nat → β) (burst region slack : Nat) : Prop where
  rows : Slack g burst region slack
  buffer : g.prefillBufferSlots ≤ region
  warm : ∀ m m', m.freedRows = [] → mirrorWarmStart g data m = .ok m' → Roomy region slack m'

theorem prefillBase_le : g.prefillBase ≤ g.prefillBufferSlots := by
  unfold Geometry.prefillBase
  split
  · exact Nat.le_refl _
  · exact Nat.zero_le _

theorem WellSized.sizing {burst : Nat} (h : WellSized g burst) (hl : 0 < g.numLayers)
    (hcap : g.reserveRows < g.capacity) (data : Nat → β) :
    ∃ region slack, Sizing g data burst region slack := by
  rcases h with ⟨hreserve, harena⟩ | hwhole
  · refine ⟨g.prefillBufferSlots, burst + g.wbStageRows,
      ⟨prefillBase_le, Or.inr (by omega), Or.inr (Nat.le_refl _)⟩, Nat.le_refl _,
      fun m m' hpub hwarm => ?_⟩
    have hfree := mirrorWarmStart_reserve hl hwarm (Nat.le_of_lt hcap) harena
    have hle : soleCopies m' (List.range g.prefillBufferSlots) ≤ g.prefillBufferSlots := by
      simpa [soleCopies] using
        List.countP_le_length (p := soleCopy m') (l := List.range g.prefillBufferSlots)
    unfold Roomy
    omega
  · refine ⟨max g.prefillBufferSlots g.cacheSize, g.wbStageRows,
      ⟨Nat.le_trans prefillBase_le (Nat.le_max_left _ _), Or.inl (Nat.le_max_right _ _),
        Or.inl ⟨Nat.le_max_right _ _, Nat.le_refl _⟩⟩, Nat.le_max_left _ _,
      fun m m' hpub hwarm => ?_⟩
    have := mirrorWarmStart_whole hwarm hpub
      (List.nodup_range (n := max g.prefillBufferSlots g.cacheSize))
    unfold Roomy
    omega

/-- A warm start serves from any state, faults apart. -/
theorem warmStart_serves {data : Nat → β} {burst : Nat} (hs : Sizing g data burst region slack)
    {m m' : Mirror β} (hpub : m.freedRows = []) (hring : RingOk g m.ring)
    (hstarved : m.stats.starved = 0) (hviolations : m.stats.violations = 0)
    (h : mirrorWarmStart g data m = .ok m') : Served g region slack m' := by
  have hloc := mirrorWarmStart_located h hpub
  have hroom := hs.warm m m' hpub h
  obtain ⟨-, gpu, pool, rfl⟩ := mirrorWarmStart_eq h
  exact ⟨hloc, hpub, hring.drain, hroom, hstarved, hviolations⟩

/-- **A step that keeps to the sizes bumps no counter of faults.** -/
theorem step_serves {data : Nat → β} {burst : Nat} (hs : Sizing g data burst region slack)
    {m m' : Mirror β} (h : Served g region slack m) {event : Event}
    (hok : Allowed g burst m event) (hstep : step g data m event = some m') :
    Served g region slack m' := by
  cases event with
  | warmStart =>
    rw [step] at hstep
    split at hstep
    · obtain rfl := Option.some.inj hstep
      exact warmStart_serves hs h.published h.ring h.starved h.violations ‹_›
    · simp at hstep
  | prefill calls =>
    obtain ⟨st, hall, hfed⟩ := prefetchAll_serves h.snapped hs.buffer hok
    rw [step, hall] at hstep
    obtain rfl := Option.some.inj hstep
    refine ⟨hfed.snapped.located, hfed.snapped.published, ?_, hfed.snapped.roomy,
      hfed.faults.1.trans h.starved, hfed.faults.2.trans h.violations⟩
    rw [hfed.ring]
    exact h.ring.drain
  | decode layerId active victims =>
    obtain ⟨hl, hv, hburst⟩ := hok
    have hlaunch := decodeLayer_keeps hs.rows h.located h.published h.ring h.roomy hl hv hburst
    obtain rfl := Option.some.inj hstep
    exact ⟨hlaunch.located, rfl, hlaunch.ring, hlaunch.roomy, hlaunch.faults.1.trans h.starved,
      hlaunch.faults.2.trans h.violations⟩
  | land done =>
    obtain ⟨hle, hge⟩ := hok
    obtain rfl := Option.some.inj hstep
    have hloc := h.located
    exact ⟨⟨hloc.slots, hloc.rows, hloc.free, hloc.inPool, hloc.covered⟩, h.published,
      h.ring.land hle hge, h.roomy, h.starved, h.violations⟩

/-- Every allowed step is served. -/
theorem step_succeeds {data : Nat → β} {burst : Nat} (hs : Sizing g data burst region slack)
    {m₀ warm m : Mirror β} (hwarm : mirrorWarmStart g data m₀ = .ok warm)
    (h : Served g region slack m) {event : Event} (hok : Allowed g burst m event) :
    ∃ m', step g data m event = some m' := by
  cases event with
  | warmStart =>
    -- whether it raises depends on the sizes alone
    obtain ⟨m', hm'⟩ : ∃ m', mirrorWarmStart g data m = .ok m' := by
      unfold mirrorWarmStart loadInitial at hwarm ⊢
      dsimp only at hwarm ⊢
      split at hwarm
      · simp at hwarm
      · rw [if_neg ‹_›]
        split at hwarm
        · simp [Except.map] at hwarm
        · rw [if_neg ‹_›]
          exact ⟨_, rfl⟩
    exact ⟨m', by rw [step, hm']⟩
  | prefill calls =>
    obtain ⟨st, hall, -⟩ := prefetchAll_serves h.snapped hs.buffer hok
    exact ⟨st.mirror, by rw [step, hall]⟩
  | decode layerId active victims => exact ⟨_, rfl⟩
  | land done => exact ⟨_, rfl⟩

/-- **In a well-sized mirror no victim is dropped and no expert is lost, whatever happens
after the warm start.** -/
theorem never_starves {data gpu pool stage : Nat → β} {burst : Nat} (hl : 0 < g.numLayers)
    (hcap : g.reserveRows < g.capacity) (hsize : WellSized g burst) {warm m : Mirror β}
    (hwarm : mirrorWarmStart g data (attached gpu pool stage) = .ok warm)
    (hrun : Reach (step g data) (Allowed g burst) warm m) :
    m.stats.starved = 0 ∧ m.stats.violations = 0 ∧
      ∀ event, Allowed g burst m event → ∃ m', step g data m event = some m' := by
  obtain ⟨region, slack, hs⟩ := hsize.sizing hl hcap data
  have hring : RingOk g (attached gpu pool stage).ring :=
    ⟨fun _ _ h => by simp [attached] at h, fun _ _ _ h => by simp [attached] at h,
      Nat.le_refl _, Nat.zero_le _⟩
  have hserved : Served g region slack m :=
    hrun.invariant (warmStart_serves hs rfl hring rfl rfl hwarm)
      fun _ _ _ hinv hok hstep => step_serves hs hinv hok hstep
  exact ⟨hserved.starved, hserved.violations, fun _ hok => step_succeeds hs hwarm hserved hok⟩

/-- Four layers of two experts, with the default reserve of three layers. -/
def defaultGeometry : Geometry :=
  { numLayers := 4, numExperts := 2, cacheSize := 7, capacity := 7, reserveRows := 6
    wbStageRows := 0 }

/-- The end of a warm start and a run. -/
def warmRun (g : Geometry) (burst : Nat) (events : List Event) : Option (Mirror Nat × Mirror Nat) :=
  match mirrorWarmStart g id (attached id id id) with
  | .ok warm => (guardedRun (step g id) (Allowed g burst) warm events).map (warm, ·)
  | .error _ => none

theorem warmRun_some {burst : Nat} {events : List Event} {p : Mirror Nat × Mirror Nat}
    (h : warmRun g burst events = some p) :
    mirrorWarmStart g id (attached id id id) = .ok p.1 ∧
      Reach (step g id) (Allowed g burst) p.1 p.2 := by
  unfold warmRun at h
  split at h
  · obtain ⟨m, hm, rfl⟩ := Option.map_eq_some_iff.mp h
    exact ⟨‹_›, reach_of_guardedRun events hm⟩
  · simp at h

/-- A sweep and one launch of every layer that has experts to fetch. -/
theorem never_starves_default : ∃ warm m,
    mirrorWarmStart defaultGeometry id (attached id id id) = .ok warm ∧
      Reach (step defaultGeometry id) (Allowed defaultGeometry 2) warm m ∧
      m.stats.swaps = 5 ∧ m.stats.starved = 0 ∧ m.stats.violations = 0 := by
  have hsome : ((warmRun defaultGeometry 2
      [.prefill [(0, 0), (1, 1)], .decode 0 [0, 1] [0, 1], .decode 1 [0, 1] [2, 3],
        .decode 3 [1] [4]]).map fun p => p.2.stats.swaps) = some 5 := by
    decide +kernel
  obtain ⟨⟨warm, m⟩, hp, hswaps⟩ := Option.map_eq_some_iff.mp hsome
  obtain ⟨hwarm, hrun⟩ := warmRun_some hp
  obtain ⟨hstarved, hviolations, -⟩ := never_starves (by decide) (by decide)
    (Or.inl (by decide)) hwarm hrun
  exact ⟨warm, m, hwarm, hrun, hswaps, hstarved, hviolations⟩

/-- Three layers of two experts, at the smallest reserve and its arena floor. -/
def minimumGeometry : Geometry :=
  { numLayers := 3, numExperts := 2, cacheSize := 5, capacity := 5, reserveRows := 4
    wbStageRows := 0 }

/-- The sweep takes the whole reserve, admissions into the emptied buffer give nothing
back, and the next victim outside the buffer is dropped. -/
theorem minimum_reserve_starves :
    ¬∀ (g : Geometry) (warm m : Mirror Nat), 0 < g.numLayers → 0 < g.numExperts →
      g.minReserveRows ≤ g.reserveRows → g.reserveRows < g.capacity →
      g.minGpuSlots ≤ g.cacheSize → g.prefillBufferSlots ≤ g.cacheSize → g.wbStageRows = 0 →
      mirrorWarmStart g id (attached id id id) = .ok warm →
      Reach (step g id) (Allowed g g.numExperts) warm m →
      m.stats.starved = 0 ∧ m.stats.violations = 0 := by
  intro h
  have hsome : ((warmRun minimumGeometry 2
      [.prefill [(0, 0), (1, 1)], .decode 0 [0, 1] [0, 1], .decode 1 [0, 1] [2, 3],
        .decode 2 [1] [4]]).map fun p => p.2.stats.starved) = some 1 := by
    decide +kernel
  obtain ⟨⟨warm, m⟩, hp, hstarved⟩ := Option.map_eq_some_iff.mp hsome
  obtain ⟨hwarm, hrun⟩ := warmRun_some hp
  have := (h minimumGeometry warm m (by decide) (by decide) (by decide) (by decide) (by decide)
    (by decide) rfl hwarm hrun).1
  dsimp only at hstarved
  omega

end FreeToken.Mirror
